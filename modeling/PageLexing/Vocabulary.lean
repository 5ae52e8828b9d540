import PageLexing.Fault

/-!
# Vocabularies in one number space

Every language numbers its token kinds for itself. A `Vocabulary` lays the numbers of
several languages side by side: each language gets a *shift*, the room taken by those
before it, and its kind `n` becomes number `n + shift`. Structural numbers are shared and
never shifted, so the first numbers of every later language stay unused.

Names may collide where languages meet. A name can be overridden for a single number
without touching the numbering; the overrides are kept in a table sorted by number.

## Main results

* `Names.find?_insert` — the table of names is a map in which the last write wins.
* `Names.sorted_insert` — the table stays strictly sorted.
-/

namespace PageLexing

/-- The token kinds of one language, numbered by that language alone. -/
structure Lexicon where
  language : String
  /-- The highest number in use. -/
  maxId : TokenId
  name? : TokenId → Option String

/-- The lexicon of a type of token kinds. -/
def Lexicon.ofKinds (κ : Type) [TokenKind κ] : Lexicon where
  language := TokenKind.languageName κ
  maxId := TokenKind.maxId κ
  name? := TokenKind.localName? κ

/-- What registering a lexicon answers: its position and its shift. -/
structure Handle where
  index : Nat
  shift : Nat
deriving DecidableEq

namespace Handle

/-- From the number in the language to the number in the whole space. -/
def toGlobal (handle : Handle) (id : TokenId) : TokenId :=
  if TokenId.isStructural id then id else id + handle.shift

/-- From the number in the whole space to the number in the language. -/
def toLocal (handle : Handle) (id : TokenId) : TokenId :=
  if TokenId.isStructural id then id else id - handle.shift

theorem toLocal_toGlobal (handle : Handle) (id : TokenId) :
    handle.toLocal (handle.toGlobal id) = id := by
  unfold toLocal toGlobal TokenId.isStructural
  grind

end Handle

/-! ## Tables of names -/

/-- Names by number, in increasing order of the numbers. -/
abbrev Names := List (TokenId × String)

namespace Names

/-- The name of `id`. -/
def find? (id : TokenId) : Names → Option String
  | [] => none
  | (key, name) :: rest => if key = id then some name else find? id rest

/-- Names `id`, in place of any name it had. -/
def insert (id : TokenId) (name : String) : Names → Names
  | [] => [(id, name)]
  | (key, old) :: rest =>
      if id < key then (id, name) :: (key, old) :: rest
      else if id = key then (id, name) :: rest
      else (key, old) :: insert id name rest

/-- Strictly sorted by number. -/
def Sorted (names : Names) : Prop := names.Pairwise (fun a b => a.1 < b.1)

theorem mem_insert {id : TokenId} {name : String} {names : Names} {entry : TokenId × String}
    (h : entry ∈ insert id name names) : entry = (id, name) ∨ entry ∈ names := by
  induction names with
  | nil => simpa [insert] using h
  | cons head rest ih =>
      obtain ⟨key, old⟩ := head
      simp only [insert] at h
      split at h
      · simpa using h
      · split at h
        · simp only [List.mem_cons] at h ⊢
          exact h.imp_right Or.inr
        · simp only [List.mem_cons] at h ⊢
          rcases h with h | h
          · exact Or.inr (Or.inl h)
          · rcases ih h with h | h
            · exact Or.inl h
            · exact Or.inr (Or.inr h)

theorem sorted_insert {names : Names} (h : Sorted names) (id : TokenId) (name : String) :
    Sorted (insert id name names) := by
  induction names with
  | nil => simp [Sorted, insert]
  | cons head rest ih =>
      obtain ⟨key, old⟩ := head
      rw [Sorted, List.pairwise_cons] at h
      obtain ⟨hhead, hrest⟩ := h
      simp only [insert]
      split
      · rename_i hlt
        refine List.pairwise_cons.mpr ⟨?_, List.pairwise_cons.mpr ⟨hhead, hrest⟩⟩
        intro entry hmem
        rcases List.mem_cons.mp hmem with rfl | hmem
        · exact hlt
        · exact Nat.lt_trans hlt (hhead entry hmem)
      · split
        · rename_i heq
          subst heq
          exact List.pairwise_cons.mpr ⟨hhead, hrest⟩
        · refine List.pairwise_cons.mpr ⟨?_, ih hrest⟩
          intro entry hmem
          rcases mem_insert hmem with rfl | hmem
          · exact Nat.lt_of_le_of_ne (Nat.le_of_not_lt ‹_›) (fun heq => absurd heq.symm ‹_›)
          · exact hhead entry hmem

theorem find?_insert {names : Names} (h : Sorted names) (id : TokenId) (name : String)
    (other : TokenId) :
    find? other (insert id name names) =
      if other = id then some name else find? other names := by
  induction names with
  | nil => simp [insert, find?, eq_comm]
  | cons head rest ih =>
      obtain ⟨key, old⟩ := head
      rw [Sorted, List.pairwise_cons] at h
      simp only [insert]
      split
      · simp only [find?]
        grind
      · split
        · simp only [find?]
          grind
        · simp only [find?, ih h.2]
          grind

end Names

/-! ## Composition -/

/-- Several lexicons in one number space. -/
structure Vocabulary where
  /-- The registered lexicons with their shifts, in order of registration. -/
  chain : List (Lexicon × Nat)
  /-- The overridden names. -/
  names : Names

namespace Vocabulary

/-- The vocabulary of no language. -/
def empty : Vocabulary := ⟨[], []⟩

/-- The highest number in use, if any language is registered. -/
def maxId? (vocabulary : Vocabulary) : Option TokenId :=
  vocabulary.chain.getLast?.map (fun entry => entry.2 + entry.1.maxId)

/-- Adds a lexicon after all others. -/
def register (vocabulary : Vocabulary) (lexicon : Lexicon) : Vocabulary × Handle :=
  let shift := (vocabulary.maxId?.map (· + 1)).getD 0
  ({ vocabulary with chain := vocabulary.chain ++ [(lexicon, shift)] },
    ⟨vocabulary.chain.length, shift⟩)

/-- The last of `chain` whose shift does not exceed `id`, with its position, if the first
of `chain` has the position `index`. -/
def ownerIn (id : TokenId) : (index : Nat) → (chain : List (Lexicon × Nat)) →
    Option (Nat × Lexicon × Nat)
  | _, [] => none
  | index, (lexicon, shift) :: rest =>
      (ownerIn id (index + 1) rest).or
        (if shift ≤ id then some (index, lexicon, shift) else none)

/-- The lexicon that a number belongs to, its position, and the number in its own
language. The structural numbers of a later language belong to nobody. -/
def owner? (vocabulary : Vocabulary) (id : TokenId) : Option (Nat × Lexicon × TokenId) :=
  if TokenId.isStructural id then none
  else
    match ownerIn id 0 vocabulary.chain with
    | none => none
    | some (index, lexicon, shift) =>
        if ! TokenId.isStructural (id - shift) ∧ id - shift ≤ lexicon.maxId then
          some (index, lexicon, id - shift)
        else none

/-- The position of the language behind a number and the number in that language. -/
def resolve (vocabulary : Vocabulary) (id : TokenId) : Option (Nat × TokenId) :=
  (vocabulary.owner? id).map (fun owner => (owner.1, owner.2.2))

/-- The name of a number: its override, its structural name, or the name that its own
language has for it. -/
def name? (vocabulary : Vocabulary) (id : TokenId) : Option String :=
  (Names.find? id vocabulary.names).or
    ((TokenId.structuralName? id).or
      ((vocabulary.owner? id).bind (fun owner => owner.2.1.name? owner.2.2)))

/-! ## Overriding names -/

/-- Overrides the name of one number. -/
def rename (vocabulary : Vocabulary) (id : TokenId) (name : String) : Vocabulary :=
  { vocabulary with names := Names.insert id name vocabulary.names }

/-- Overrides the name of the kind `id` of the lexicon behind `handle`. -/
def override (vocabulary : Vocabulary) (handle : Handle) (id : TokenId) (name : String) :
    Except Fault Vocabulary :=
  match vocabulary.chain[handle.index]? with
  | none => .error (.unregistered handle.index handle.shift)
  | some (lexicon, shift) =>
      if shift ≠ handle.shift then .error (.unregistered handle.index handle.shift)
      else if TokenId.isStructural id ∨ lexicon.maxId < id then
        .error (.outsideVocabulary id lexicon.language)
      else .ok (vocabulary.rename (handle.toGlobal id) name)

/-- The numbers that the kinds of a lexicon may have. -/
def kindIds (lexicon : Lexicon) : List TokenId :=
  List.range' TokenId.firstKind (lexicon.maxId + 1 - TokenId.firstKind)

/-- Whether a lexicon calls one of its kinds `name`. -/
def usesName (name : String) (lexicon : Lexicon) : Bool :=
  (kindIds lexicon).any (fun id => lexicon.name? id == some name)

/-- The kinds of the lexicon at `index` whose names are used before it, with the names
that tell them apart: the language, a dash, and the old name. -/
def collisions (vocabulary : Vocabulary) (index : Nat) (lexicon : Lexicon) :
    List (TokenId × String) :=
  (kindIds lexicon).filterMap (fun id =>
    match lexicon.name? id with
    | none => none
    | some name =>
        if (vocabulary.chain.take index).any (fun entry => usesName name entry.1) then
          some (id, lexicon.language ++ "-" ++ name)
        else none)

/-- Renames every kind of the lexicon behind `handle` whose name is used before it. -/
def separate (vocabulary : Vocabulary) (handle : Handle) (lexicon : Lexicon) : Vocabulary :=
  (vocabulary.collisions handle.index lexicon).foldl
    (fun renamed entry => renamed.rename (handle.toGlobal entry.1) entry.2) vocabulary

/-- The same for a handle that may be foreign: it is refused if there is anything to
rename under it. -/
def overrideCollisions (vocabulary : Vocabulary) (handle : Handle) :
    Except Fault Vocabulary :=
  match vocabulary.chain[handle.index]? with
  | none => .error (.unregistered handle.index handle.shift)
  | some (lexicon, shift) =>
      if shift ≠ handle.shift ∧ vocabulary.collisions handle.index lexicon ≠ [] then
        .error (.unregistered handle.index handle.shift)
      else .ok (vocabulary.separate handle lexicon)

end Vocabulary

end PageLexing
