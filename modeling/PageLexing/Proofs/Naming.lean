import PageLexing.Proofs.Composition

/-!
# Names that were overridden

A vocabulary is made by calls that come in any order: languages are registered, names are
overridden one at a time, and the names of a language that collide with earlier ones are
overridden at once. The overridden names are kept in a table that is searched by halves. After
any calls a number has the name that was given to it last; if it was given none, it has the
name that its own language has for it. The numbers themselves are a matter of the languages
registered, never of the names.

## Main results

* `Names.search_eq`, `Names.enter_eq` — an ordered table may be searched by halves.
* `Composer.tracks_run` — what calls lead to, by induction on the calls.
* `Composer.names_last_written` — the names after any calls, and what one more call does.
-/

namespace PageLexing

/-! ## Searching by halves -/

namespace Names

/-- Halves the `size` entries from `base` on until one is left: the last of them whose number
does not exceed `id`, or the first of them. -/
def halve (id : TokenId) (names : Names) (base size : Nat) : Nat :=
  if size ≤ 1 then base
  else if (names[base + size / 2]?).any (fun entry => id < entry.1) then
    halve id names base (size - size / 2)
  else halve id names (base + size / 2) (size - size / 2)
termination_by size
decreasing_by all_goals omega

/-- Where `id` stands in the table or, as an error, where it would have to stand. -/
def locate (id : TokenId) (names : Names) : Except Nat Nat :=
  let base := halve id names 0 names.length
  match names[base]? with
  | none => .error 0
  | some (key, _) =>
      if key = id then .ok base else if key < id then .error (base + 1) else .error base

/-- The name of `id`, searched by halves. -/
def search (id : TokenId) (names : Names) : Option String :=
  match locate id names with
  | .ok place => (names[place]?).map Prod.snd
  | .error _ => none

/-- Names `id` where searching it by halves ends. -/
def enter (id : TokenId) (name : String) (names : Names) : Names :=
  match locate id names with
  | .ok place => names.set place (id, name)
  | .error place => names.take place ++ (id, name) :: names.drop place

variable {id : TokenId} {name : String} {names : Names}

/-- In an ordered table the numbers grow with the places. -/
theorem Sorted.lt (h : Sorted names) {i j : Nat} {a b : TokenId × String}
    (ha : names[i]? = some a) (hb : names[j]? = some b) (hij : i < j) : a.1 < b.1 := by
  obtain ⟨hi, rfl⟩ := List.getElem?_eq_some_iff.mp ha
  obtain ⟨hj, rfl⟩ := List.getElem?_eq_some_iff.mp hb
  exact List.pairwise_iff_getElem.mp h i j hi hj hij

/-- What halving keeps: the entry at `base` does not exceed `id`, unless it is the first of
all, and the entries from `stop` on do. -/
structure Brackets (id : TokenId) (names : Names) (base stop : Nat) : Prop where
  lt : base < stop
  le : stop ≤ names.length
  low : base = 0 ∨ ∀ entry, names[base]? = some entry → entry.1 ≤ id
  high : ∀ place entry, stop ≤ place → names[place]? = some entry → id < entry.1

/-- Halving ends at an entry behind which all exceed `id`. -/
theorem brackets_halve (h : Sorted names) {base size : Nat}
    (hbrackets : Brackets id names base (base + size)) :
    Brackets id names (halve id names base size) (halve id names base size + 1) := by
  induction base, size using halve.induct id names with
  | case1 base size hsize =>
      have hone : size = 1 := by
        have := hbrackets.lt
        omega
      subst hone
      rw [halve, if_pos hsize]
      exact hbrackets
  | case2 base size hsize hexceeds ih =>
      rw [halve, if_neg hsize, if_pos hexceeds]
      obtain ⟨middle, hmiddle, hlt⟩ := (Option.any_eq_true _ _).mp hexceeds
      have hlt := of_decide_eq_true hlt
      refine ih ⟨by omega, by have := hbrackets.le; omega, hbrackets.low, ?_⟩
      intro place entry hplace hentry
      rcases Nat.eq_or_lt_of_le (show base + size / 2 ≤ place by omega) with rfl | hbehind
      · rw [hmiddle] at hentry
        cases hentry
        exact hlt
      · exact Nat.lt_trans hlt (h.lt hmiddle hentry hbehind)
  | case3 base size hsize hexceeds ih =>
      rw [halve, if_neg hsize, if_neg hexceeds]
      have hstop : base + size / 2 + (size - size / 2) = base + size := by omega
      refine ih ⟨by omega, hstop ▸ hbrackets.le, Or.inr ?_, hstop ▸ hbrackets.high⟩
      intro entry hentry
      rw [hentry] at hexceeds
      exact Nat.le_of_not_lt fun hlt => hexceeds (decide_eq_true hlt)

/-- What is located: the place of `id`, or the place before which all numbers are lower and
behind which all are higher. -/
inductive Located (id : TokenId) (names : Names) : Except Nat Nat → Prop where
  | ok {place : Nat} {name : String} (entry : names[place]? = some (id, name)) :
      Located id names (.ok place)
  | error {place : Nat} (le : place ≤ names.length)
      (below : ∀ i entry, i < place → names[i]? = some entry → entry.1 < id)
      (above : ∀ i entry, place ≤ i → names[i]? = some entry → id < entry.1) :
      Located id names (.error place)

theorem located (h : Sorted names) (id : TokenId) : Located id names (locate id names) := by
  rcases Nat.eq_zero_or_pos names.length with hnil | hpos
  · cases List.eq_nil_of_length_eq_zero hnil
    exact .error (Nat.le_refl 0) (fun _ _ _ hentry => nomatch hentry)
      (fun _ _ _ hentry => nomatch hentry)
  · have hbrackets : Brackets id names 0 (0 + names.length) := by
      refine ⟨by omega, by omega, Or.inl rfl, fun place entry hplace hentry => ?_⟩
      rw [List.getElem?_eq_none (by omega)] at hentry
      cases hentry
    obtain ⟨-, hle, hlow, hhigh⟩ := brackets_halve h hbrackets
    rw [locate]
    generalize halve id names 0 names.length = base at hle hlow hhigh
    obtain ⟨⟨key, name⟩, hentry⟩ : ∃ entry, names[base]? = some entry :=
      ⟨_, List.getElem?_eq_getElem (by omega)⟩
    simp only [hentry]
    rcases Nat.lt_trichotomy key id with hlt | rfl | hgt
    · rw [if_neg (Nat.ne_of_lt hlt), if_pos hlt]
      refine .error hle (fun i entry hi hget => ?_) hhigh
      rcases Nat.eq_or_lt_of_le (Nat.le_of_lt_succ hi) with rfl | hbefore
      · rw [hentry] at hget
        cases hget
        exact hlt
      · exact Nat.lt_trans (h.lt hget hentry hbefore) hlt
    · rw [if_pos rfl]
      exact .ok hentry
    · rw [if_neg (Nat.ne_of_gt hgt), if_neg (Nat.lt_asymm hgt)]
      have hzero : base = 0 := hlow.resolve_right fun hle =>
        absurd (hle _ hentry) (Nat.not_le.mpr hgt)
      subst hzero
      refine .error (Nat.zero_le _) (fun i _ hi => absurd hi (Nat.not_lt_zero i)) ?_
      intro i entry _ hget
      rcases Nat.eq_zero_or_pos i with rfl | hi
      · rw [hentry] at hget
        cases hget
        exact hgt
      · exact hhigh i entry hi hget

theorem find?_of_getElem? (h : Sorted names) {place : Nat}
    (hentry : names[place]? = some (id, name)) : find? id names = some name := by
  induction names generalizing place with
  | nil => cases hentry
  | cons head rest ih =>
      obtain ⟨hhead, hrest⟩ := List.pairwise_cons.mp h
      cases place with
      | zero =>
          cases hentry
          rw [find?, if_pos rfl]
      | succ place =>
          rw [List.getElem?_cons_succ] at hentry
          have hlt := hhead _ (List.mem_of_getElem? hentry)
          rw [find?, if_neg (Nat.ne_of_lt hlt)]
          exact ih hrest hentry

theorem find?_eq_none (h : ∀ entry ∈ names, entry.1 ≠ id) : find? id names = none := by
  induction names with
  | nil => rfl
  | cons head rest ih =>
      rw [find?, if_neg (h head (List.mem_cons_self ..))]
      exact ih fun entry hmem => h entry (List.mem_cons_of_mem _ hmem)

/-- A number that stands in the table is named where it stands. -/
theorem insert_of_getElem? (h : Sorted names) {place : Nat} {old : String}
    (hentry : names[place]? = some (id, old)) :
    insert id name names = names.set place (id, name) := by
  induction names generalizing place with
  | nil => cases hentry
  | cons head rest ih =>
      obtain ⟨hhead, hrest⟩ := List.pairwise_cons.mp h
      cases place with
      | zero =>
          cases hentry
          rw [insert, if_neg (Nat.lt_irrefl _), if_pos rfl, List.set_cons_zero]
      | succ place =>
          rw [List.getElem?_cons_succ] at hentry
          have hlt := hhead _ (List.mem_of_getElem? hentry)
          rw [insert, if_neg (Nat.lt_asymm hlt), if_neg (Nat.ne_of_gt hlt), ih hrest hentry,
            List.set_cons_succ]

/-- Any other number is named between the lower and the higher ones. -/
theorem insert_append {front rest : Names} (hbelow : ∀ entry ∈ front, entry.1 < id)
    (habove : ∀ entry ∈ rest, id < entry.1) :
    insert id name (front ++ rest) = front ++ (id, name) :: rest := by
  induction front with
  | nil =>
      cases rest with
      | nil => rfl
      | cons head rest =>
          rw [List.nil_append, insert, if_pos (habove head (List.mem_cons_self ..))]
          rfl
  | cons head front ih =>
      have hlt := hbelow head (List.mem_cons_self ..)
      rw [List.cons_append, insert, if_neg (Nat.lt_asymm hlt), if_neg (Nat.ne_of_gt hlt),
        ih fun entry hmem => hbelow entry (List.mem_cons_of_mem _ hmem)]
      rfl

/-- Searching an ordered table by halves finds what it holds. -/
theorem search_eq (h : Sorted names) (id : TokenId) : search id names = find? id names := by
  have hlocated := located h id
  rw [search]
  generalize locate id names = found at hlocated
  cases hlocated with
  | ok entry =>
      rw [find?_of_getElem? h entry]
      simp only [entry, Option.map_some]
  | error le below above =>
      refine (find?_eq_none fun entry hmem => ?_).symm
      obtain ⟨i, hentry⟩ := List.mem_iff_getElem?.mp hmem
      rcases Nat.lt_or_ge i _ with hlt | hge
      · exact Nat.ne_of_lt (below i entry hlt hentry)
      · exact Nat.ne_of_gt (above i entry hge hentry)

/-- What is entered by halves into an ordered table stands where it belongs. -/
theorem enter_eq (h : Sorted names) (id : TokenId) (name : String) :
    enter id name names = insert id name names := by
  have hlocated := located h id
  rw [enter]
  generalize locate id names = found at hlocated
  cases hlocated with
  | ok entry => exact (insert_of_getElem? h entry).symm
  | @error place le below above =>
      have hinsert := @insert_append id name (names.take place) (names.drop place) (by
        intro entry hmem
        obtain ⟨i, hentry⟩ := List.mem_iff_getElem?.mp hmem
        rw [List.getElem?_take] at hentry
        split at hentry
        · exact below i entry ‹_› hentry
        · cases hentry) (by
        intro entry hmem
        obtain ⟨i, hentry⟩ := List.mem_iff_getElem?.mp hmem
        rw [List.getElem?_drop] at hentry
        exact above _ entry (Nat.le_add_right _ _) hentry)
      rw [List.take_append_drop] at hinsert
      exact hinsert.symm

end Names

/-! ## Calls -/

/-- A call to a vocabulary that is being made. Of the handles, each is named by how many were
answered before it. -/
inductive Call where
  | register (lexicon : Lexicon)
  | override (nth : Nat) (id : TokenId) (name : String)
  | separate (nth : Nat)

/-- A vocabulary that is being made, with the handles that it has answered. -/
structure Composer where
  vocabulary : Vocabulary
  handles : List Handle

namespace Composer

/-- The composer of no language. -/
def empty : Composer := ⟨.empty, []⟩

/-- Makes one call. A handle that was not answered yet names no call. -/
def call (composer : Composer) : Call → Except Fault Composer
  | .register lexicon =>
      let (vocabulary, handle) := composer.vocabulary.register lexicon
      .ok ⟨vocabulary, composer.handles ++ [handle]⟩
  | .override nth id name =>
      match composer.handles[nth]? with
      | none => .ok composer
      | some handle => do
          let vocabulary ← composer.vocabulary.override handle id name
          .ok { composer with vocabulary }
  | .separate nth =>
      match composer.handles[nth]? with
      | none => .ok composer
      | some handle => do
          let vocabulary ← composer.vocabulary.overrideCollisions handle
          .ok { composer with vocabulary }

/-- What a call leads to. One that is refused leads nowhere. -/
def after (composer : Composer) (call : Call) : Composer :=
  match composer.call call with
  | .ok next => next
  | .error _ => composer

/-- Makes calls one after the other. -/
def run (composer : Composer) : List Call → Composer
  | [] => composer
  | call :: calls => (composer.after call).run calls

end Composer

/-! ## What calls ask for -/

namespace Lexicon

/-- A lexicon gives to its kind `id` a name that one of the earlier lexicons gives to a kind
of its own. -/
def Clashes (earlier : List Lexicon) (lexicon : Lexicon) (id : TokenId) (name : String) : Prop :=
  TokenId.firstKind ≤ id ∧ id ≤ lexicon.maxId ∧ lexicon.name? id = some name ∧
    ∃ other ∈ earlier, ∃ kind, TokenId.firstKind ≤ kind ∧ kind ≤ other.maxId ∧
      other.name? kind = some name

/-- The kinds of a lexicon whose names clash, with the names that tell them apart. -/
def clashes (earlier : List Lexicon) (lexicon : Lexicon) : List (TokenId × String) :=
  (Vocabulary.kindIds lexicon).filterMap fun id =>
    match lexicon.name? id with
    | none => none
    | some name =>
        if earlier.any (Vocabulary.usesName name) then
          some (id, lexicon.language ++ "-" ++ name)
        else none

end Lexicon

namespace Call

open Lexicon

/-- The lexicons that are registered with a call. -/
def registered : Call → List Lexicon
  | register lexicon => [lexicon]
  | override _ _ _ => []
  | separate _ => []

/-- The names that a call gives to numbers behind `lexicons`. A kind that its language does not
have is given none. -/
def given (lexicons : List Lexicon) : Call → List (TokenId × String)
  | register _ => []
  | override nth id name =>
      match lexicons[nth]? with
      | none => []
      | some lexicon =>
          if TokenId.firstKind ≤ id ∧ id ≤ lexicon.maxId then
            [(id + room (lexicons.take nth), name)]
          else []
  | separate nth =>
      match lexicons[nth]? with
      | none => []
      | some lexicon => (clashes (lexicons.take nth) lexicon).map fun entry =>
          (entry.1 + room (lexicons.take nth), entry.2)

/-- The names that calls give behind `lexicons`, the most recent one last. -/
def allGiven (lexicons : List Lexicon) : List Call → List (TokenId × String)
  | [] => []
  | call :: calls => call.given lexicons ++ allGiven (lexicons ++ call.registered) calls

end Call

/-- The name that was given to `id` last. -/
def lastGiven (given : List (TokenId × String)) (id : TokenId) : Option String :=
  given.reverse.lookup id

theorem lastGiven_append (given more : List (TokenId × String)) (id : TokenId) :
    lastGiven (given ++ more) id = (lastGiven more id).or (lastGiven given id) := by
  rw [lastGiven, List.reverse_append, List.lookup_append]
  rfl

theorem lastGiven_singleton (id : TokenId) (name : String) (other : TokenId) :
    lastGiven [(id, name)] other = if other = id then some name else none := by
  rw [lastGiven, List.reverse_singleton, List.lookup_cons, List.lookup_nil]
  by_cases h : other = id
  · rw [if_pos h, beq_iff_eq.mpr h]
  · rw [if_neg h, beq_eq_false_iff_ne.mpr h]

theorem mem_of_lastGiven {given : List (TokenId × String)} {id : TokenId} {name : String}
    (h : lastGiven given id = some name) : (id, name) ∈ given := by
  obtain ⟨front, rest, hsplit, -⟩ := List.lookup_eq_some_iff.mp h
  rw [← List.mem_reverse, hsplit]
  exact List.mem_append_right _ (List.mem_cons_self ..)

/-- A number that is given one name only has that name. -/
theorem lastGiven_of_mem {given : List (TokenId × String)} {id : TokenId} {name : String}
    (hmem : (id, name) ∈ given) (hunique : ∀ other, (id, other) ∈ given → other = name) :
    lastGiven given id = some name := by
  cases hlast : lastGiven given id with
  | none =>
      have hnone := List.lookup_eq_none_iff.mp hlast (id, name) (List.mem_reverse.mpr hmem)
      simp at hnone
  | some other => rw [hunique other (mem_of_lastGiven hlast)]

theorem lastGiven_eq_none {given : List (TokenId × String)} {id : TokenId}
    (h : ∀ name, (id, name) ∉ given) : lastGiven given id = none := by
  cases hlast : lastGiven given id with
  | none => rfl
  | some name => exact absurd (mem_of_lastGiven hlast) (h name)

namespace Vocabulary

open Lexicon

variable {vocabulary : Vocabulary} {lexicons : List Lexicon}

/-! ## Lexicons by their places -/

theorem getElem?_chainFrom (shift nth : Nat) (lexicons : List Lexicon) :
    (chainFrom shift lexicons)[nth]? =
      lexicons[nth]?.map fun lexicon => (lexicon, shift + room (lexicons.take nth)) := by
  induction lexicons generalizing shift nth with
  | nil => rfl
  | cons lexicon rest ih =>
      cases nth with
      | zero => rfl
      | succ nth =>
          rw [chainFrom, List.getElem?_cons_succ, ih, List.getElem?_cons_succ, List.take_succ_cons,
            room_cons, Nat.add_assoc]

theorem map_fst_chainFrom (shift : Nat) (lexicons : List Lexicon) :
    (chainFrom shift lexicons).map Prod.fst = lexicons := by
  induction lexicons generalizing shift with
  | nil => rfl
  | cons lexicon rest ih => rw [chainFrom, List.map_cons, ih]

theorem mem_kindIds {lexicon : Lexicon} {id : TokenId} :
    id ∈ kindIds lexicon ↔ TokenId.firstKind ≤ id ∧ id ≤ lexicon.maxId := by
  have hlength : ∀ first last n : Nat,
      first ≤ n ∧ n < first + (last + 1 - first) ↔ first ≤ n ∧ n ≤ last := by
    omega
  exact List.mem_range'_1.trans (hlength _ _ id)

theorem usesName_iff {lexicon : Lexicon} {name : String} :
    usesName name lexicon = true ↔ ∃ kind, TokenId.firstKind ≤ kind ∧ kind ≤ lexicon.maxId ∧
      lexicon.name? kind = some name := by
  simp only [usesName, List.any_eq_true, mem_kindIds, beq_iff_eq, and_assoc]

/-- What collides behind laid out lexicons are the names that clash with those before. -/
theorem collisions_eq_clashes (h : Lays lexicons vocabulary) (nth : Nat) (lexicon : Lexicon) :
    vocabulary.collisions nth lexicon = clashes (lexicons.take nth) lexicon := by
  have hearlier : (vocabulary.chain.take nth).map Prod.fst = lexicons.take nth := by
    rw [h, List.map_take, map_fst_chainFrom]
  rw [collisions, clashes, ← hearlier]
  simp only [List.any_map]
  rfl

end Vocabulary

/-- The new names are those of the names that clash. -/
theorem Lexicon.mem_clashes {earlier : List Lexicon} {lexicon : Lexicon} {id : TokenId}
    {name : String} : (id, name) ∈ clashes earlier lexicon ↔
      ∃ own, Clashes earlier lexicon id own ∧ name = lexicon.language ++ "-" ++ own := by
  rw [clashes, List.mem_filterMap]
  constructor
  · rintro ⟨kind, hkind, hgiven⟩
    cases hown : lexicon.name? kind with
    | none =>
        rw [hown] at hgiven
        cases hgiven
    | some own =>
        simp only [hown] at hgiven
        split at hgiven
        · rename_i hused
          cases hgiven
          obtain ⟨other, hother, huses⟩ := List.any_eq_true.mp hused
          exact ⟨own, ⟨(Vocabulary.mem_kindIds.mp hkind).1, (Vocabulary.mem_kindIds.mp hkind).2,
            hown, other, hother, Vocabulary.usesName_iff.mp huses⟩, rfl⟩
        · cases hgiven
  · rintro ⟨own, ⟨hfirst, hmax, hown, other, hother, huses⟩, rfl⟩
    refine ⟨id, Vocabulary.mem_kindIds.mpr ⟨hfirst, hmax⟩, ?_⟩
    simp only [hown]
    exact if_pos (List.any_eq_true.mpr ⟨other, hother, Vocabulary.usesName_iff.mpr huses⟩)

/-! ## Many names at once -/

namespace Vocabulary

open Lexicon

variable {vocabulary : Vocabulary} {lexicons : List Lexicon}

/-- Overrides names one after the other. -/
def renameAll (vocabulary : Vocabulary) (entries : List (TokenId × String)) : Vocabulary :=
  entries.foldl (fun renamed entry => renamed.rename entry.1 entry.2) vocabulary

theorem chain_renameAll (entries : List (TokenId × String)) :
    (vocabulary.renameAll entries).chain = vocabulary.chain := by
  induction entries generalizing vocabulary with
  | nil => rfl
  | cons entry rest ih => exact ih

/-- The table holds the names that were overridden last, and stays ordered. -/
theorem names_renameAll (h : Names.Sorted vocabulary.names) (entries : List (TokenId × String)) :
    Names.Sorted (vocabulary.renameAll entries).names ∧
      ∀ id, Names.find? id (vocabulary.renameAll entries).names =
        (lastGiven entries id).or (Names.find? id vocabulary.names) := by
  induction entries generalizing vocabulary with
  | nil => exact ⟨h, fun _ => rfl⟩
  | cons entry rest ih =>
      obtain ⟨hsorted, hnames⟩ := @ih (vocabulary.rename entry.1 entry.2)
        (Names.sorted_insert h entry.1 entry.2)
      refine ⟨hsorted, fun id => (hnames id).trans ?_⟩
      rw [← List.singleton_append, lastGiven_append, Option.or_assoc, lastGiven_singleton, rename,
        Names.find?_insert h]
      split <;> rfl

/-- A number that is no kind's is structural or too high. -/
theorem outside_iff {id : TokenId} {lexicon : Lexicon} :
    (TokenId.isStructural id = true ∨ lexicon.maxId < id) ↔
      ¬ (TokenId.firstKind ≤ id ∧ id ≤ lexicon.maxId) := by
  rw [← not_iff_not, not_not, not_or, Bool.not_eq_true, TokenId.isStructural_eq_false_iff,
    Nat.not_lt]

/-- An override is refused if the language has no such kind. -/
theorem override_eq {handle : Handle} {lexicon : Lexicon}
    (h : vocabulary.chain[handle.index]? = some (lexicon, handle.shift)) (id : TokenId)
    (name : String) : vocabulary.override handle id name =
      if TokenId.firstKind ≤ id ∧ id ≤ lexicon.maxId then
        .ok (vocabulary.rename (id + handle.shift) name)
      else .error (.outsideVocabulary id lexicon.language) := by
  simp only [override, h, ne_eq, not_true_eq_false, if_false, outside_iff, ite_not]
  by_cases hfirst : TokenId.firstKind ≤ id
  · rw [toGlobal_of_le _ hfirst]
  · rw [if_neg fun h => hfirst h.1, if_neg fun h => hfirst h.1]

/-- Names of kinds that the language has are overridden one after the other. -/
theorem foldlM_override {handle : Handle} {lexicon : Lexicon} (entries : List (TokenId × String))
    (h : vocabulary.chain[handle.index]? = some (lexicon, handle.shift))
    (hentries : ∀ entry ∈ entries, TokenId.firstKind ≤ entry.1 ∧ entry.1 ≤ lexicon.maxId) :
    entries.foldlM (fun renamed entry => renamed.override handle entry.1 entry.2) vocabulary =
      .ok (vocabulary.renameAll (entries.map fun entry => (entry.1 + handle.shift, entry.2))) := by
  induction entries generalizing vocabulary with
  | nil => rfl
  | cons entry rest ih =>
      rw [List.foldlM_cons, override_eq h, if_pos (hentries entry (List.mem_cons_self ..))]
      exact @ih (vocabulary.rename (entry.1 + handle.shift) entry.2) h
        fun other hmem => hentries other (List.mem_cons_of_mem _ hmem)

end Vocabulary

namespace Composer

open Lexicon Vocabulary

/-! ## What calls lead to -/

/-- A composer that answered handles for `lexicons` and keeps the names `given`. -/
structure Tracks (lexicons : List Lexicon) (given : List (TokenId × String))
    (composer : Composer) : Prop where
  lays : Lays lexicons composer.vocabulary
  handles : ∀ nth, composer.handles[nth]? =
    lexicons[nth]?.map fun _ => Handle.mk nth (room (lexicons.take nth))
  sorted : Names.Sorted composer.vocabulary.names
  names : ∀ id, Names.find? id composer.vocabulary.names = lastGiven given id

variable {composer : Composer} {lexicons : List Lexicon} {given : List (TokenId × String)}

theorem tracks_empty : Tracks [] [] empty where
  lays := rfl
  handles _ := rfl
  sorted := List.Pairwise.nil
  names _ := rfl

theorem Tracks.length_handles (h : Tracks lexicons given composer) :
    composer.handles.length = lexicons.length := by
  refine Nat.le_antisymm (List.getElem?_eq_none_iff.mp ?_) (List.getElem?_eq_none_iff.mp ?_)
  · rw [h.handles, List.getElem?_eq_none (Nat.le_refl _)]
    rfl
  · have hnone := h.handles composer.handles.length
    rw [List.getElem?_eq_none (Nat.le_refl _)] at hnone
    exact Option.map_eq_none_iff.mp hnone.symm

/-- Registering a lexicon leaves the names alone. -/
theorem Tracks.register (h : Tracks lexicons given composer) (lexicon : Lexicon) :
    Tracks (lexicons ++ [lexicon]) given
      ⟨(composer.vocabulary.register lexicon).1,
        composer.handles ++ [(composer.vocabulary.register lexicon).2]⟩ := by
  obtain ⟨hlays, hhandle⟩ := lays_register h.lays lexicon
  refine ⟨hlays, fun nth => ?_, h.sorted, h.names⟩
  rw [hhandle]
  rcases Nat.lt_trichotomy nth lexicons.length with hlt | rfl | hgt
  · rw [List.getElem?_append_left (h.length_handles ▸ hlt), List.getElem?_append_left hlt,
      h.handles, List.take_append_of_le_length (Nat.le_of_lt hlt)]
  · rw [List.getElem?_concat_length, List.take_left, ← h.length_handles,
      List.getElem?_concat_length]
    rfl
  · rw [List.getElem?_eq_none, List.getElem?_eq_none]
    · rfl
    · simpa using Nat.succ_le_of_lt hgt
    · simpa [h.length_handles] using Nat.succ_le_of_lt hgt

/-- A handle that was answered stands for its lexicon. -/
theorem Tracks.chain_get (h : Tracks lexicons given composer) {nth : Nat} {lexicon : Lexicon}
    (hget : lexicons[nth]? = some lexicon) :
    composer.handles[nth]? = some ⟨nth, room (lexicons.take nth)⟩ ∧
      composer.vocabulary.chain[nth]? = some (lexicon, room (lexicons.take nth)) := by
  refine ⟨by rw [h.handles, hget]; rfl, ?_⟩
  rw [h.lays, getElem?_chainFrom, hget, Nat.zero_add]
  rfl

/-- Overriding names leaves the lexicons alone. -/
theorem Tracks.renameAll (h : Tracks lexicons given composer)
    (entries : List (TokenId × String)) :
    Tracks lexicons (given ++ entries)
      { composer with vocabulary := composer.vocabulary.renameAll entries } := by
  obtain ⟨hsorted, hnames⟩ := names_renameAll h.sorted entries
  refine ⟨(chain_renameAll entries).trans h.lays, h.handles, hsorted, fun id => ?_⟩
  rw [lastGiven_append, ← h.names]
  exact hnames id

/-- Which overrides are refused, and what the others lead to. -/
theorem Tracks.call_override (h : Tracks lexicons given composer) {nth : Nat} {lexicon : Lexicon}
    (hget : lexicons[nth]? = some lexicon) (id : TokenId) (name : String) :
    composer.call (.override nth id name) =
      if TokenId.firstKind ≤ id ∧ id ≤ lexicon.maxId then
        .ok { composer with
          vocabulary := composer.vocabulary.rename (id + room (lexicons.take nth)) name }
      else .error (.outsideVocabulary id lexicon.language) := by
  obtain ⟨hhandle, hchain⟩ := h.chain_get hget
  simp only [call, hhandle]
  rw [override_eq hchain]
  split <;> rfl

/-- The names of a language that clash are all overridden, as if one after the other. -/
theorem Tracks.overrideCollisions_eq (h : Tracks lexicons given composer) {nth : Nat}
    {lexicon : Lexicon} (hget : lexicons[nth]? = some lexicon) :
    composer.vocabulary.overrideCollisions ⟨nth, room (lexicons.take nth)⟩ =
      .ok (composer.vocabulary.renameAll ((Call.separate nth).given lexicons)) := by
  obtain ⟨-, hchain⟩ := h.chain_get hget
  have hentries : (composer.vocabulary.collisions nth lexicon).map
      (fun entry => (Handle.toGlobal ⟨nth, room (lexicons.take nth)⟩ entry.1, entry.2)) =
        (Call.separate nth).given lexicons := by
    rw [collisions_eq_clashes h.lays, Call.given, hget]
    refine List.map_congr_left fun entry hmem => ?_
    obtain ⟨own, hclash, -⟩ := mem_clashes.mp hmem
    rw [toGlobal_of_le _ hclash.1]
  simp only [overrideCollisions, hchain, ne_eq, not_true_eq_false, false_and, if_false,
    ← hentries, Vocabulary.renameAll, List.foldl_map]
  rfl

theorem Tracks.call_separate (h : Tracks lexicons given composer) {nth : Nat}
    {lexicon : Lexicon} (hget : lexicons[nth]? = some lexicon) :
    composer.call (.separate nth) = .ok { composer with
      vocabulary := composer.vocabulary.renameAll ((Call.separate nth).given lexicons) } := by
  obtain ⟨hhandle, hchain⟩ := h.chain_get hget
  simp only [call, hhandle, h.overrideCollisions_eq hget]
  rfl

/-- A handle that was not answered names no call. -/
theorem Tracks.handle_eq_none (h : Tracks lexicons given composer) {nth : Nat}
    (hnone : lexicons[nth]? = none) : composer.handles[nth]? = none := by
  rw [h.handles, hnone]
  rfl

/-- Only a name for a kind that its language does not have is refused. -/
theorem Tracks.call_eq_error_iff (h : Tracks lexicons given composer) (call : Call)
    (fault : Fault) : composer.call call = .error fault ↔
      ∃ nth id name lexicon, call = .override nth id name ∧ lexicons[nth]? = some lexicon ∧
        (TokenId.isStructural id ∨ lexicon.maxId < id) ∧
        fault = .outsideVocabulary id lexicon.language := by
  cases call with
  | register lexicon =>
      refine ⟨fun hrefused => (nomatch hrefused), ?_⟩
      rintro ⟨_, _, _, _, hcall, -⟩
      cases hcall
  | override nth id name =>
      cases hget : lexicons[nth]? with
      | none =>
          simp only [Composer.call, h.handle_eq_none hget]
          refine ⟨fun hrefused => (nomatch hrefused), ?_⟩
          rintro ⟨_, _, _, lexicon, hcall, hsome, -⟩
          cases hcall
          rw [hget] at hsome
          cases hsome
      | some lexicon =>
          rw [h.call_override hget]
          constructor
          · intro hrefused
            split at hrefused
            · cases hrefused
            · rename_i hrange
              cases hrefused
              refine ⟨nth, id, name, lexicon, rfl, hget, ?_, rfl⟩
              rwa [← outside_iff] at hrange
          · rintro ⟨_, _, _, other, hcall, hsome, hrange, rfl⟩
            cases hcall
            rw [hget] at hsome
            cases hsome
            rw [if_neg (outside_iff.mp hrange)]
  | separate nth =>
      have hcalled : ∃ next, composer.call (.separate nth) = .ok next := by
        cases hget : lexicons[nth]? with
        | none => exact ⟨composer, by simp only [Composer.call, h.handle_eq_none hget]⟩
        | some lexicon => exact ⟨_, h.call_separate hget⟩
      obtain ⟨next, hnext⟩ := hcalled
      rw [hnext]
      refine ⟨fun hrefused => (nomatch hrefused), ?_⟩
      rintro ⟨_, _, _, _, hcall, -⟩
      cases hcall

/-- One call registers its lexicon and gives its names. -/
theorem Tracks.after (h : Tracks lexicons given composer) (call : Call) :
    Tracks (lexicons ++ call.registered) (given ++ call.given lexicons)
      (composer.after call) := by
  cases call with
  | register lexicon =>
      rw [Call.given, List.append_nil]
      exact h.register lexicon
  | override nth id name =>
      rw [Call.registered, List.append_nil, Call.given, Composer.after]
      cases hget : lexicons[nth]? with
      | none =>
          simp only [call, h.handle_eq_none hget, List.append_nil]
          exact h
      | some lexicon =>
          rw [h.call_override hget]
          by_cases hrange : TokenId.firstKind ≤ id ∧ id ≤ lexicon.maxId
          · simp only [if_pos hrange]
            exact h.renameAll [(id + room (lexicons.take nth), name)]
          · simp only [if_neg hrange, List.append_nil]
            exact h
  | separate nth =>
      rw [Call.registered, List.append_nil, Composer.after]
      cases hget : lexicons[nth]? with
      | none =>
          simp only [call, h.handle_eq_none hget, Call.given, hget, List.append_nil]
          exact h
      | some lexicon =>
          rw [h.call_separate hget]
          exact h.renameAll _

/-- Calls register their lexicons and give their names, one after the other. -/
theorem Tracks.run (h : Tracks lexicons given composer) (calls : List Call) :
    Tracks (lexicons ++ calls.flatMap Call.registered)
      (given ++ Call.allGiven lexicons calls) (composer.run calls) := by
  induction calls generalizing composer lexicons given with
  | nil =>
      rw [List.flatMap_nil, List.append_nil, Call.allGiven, List.append_nil]
      exact h
  | cons call calls ih =>
      rw [List.flatMap_cons, ← List.append_assoc, Call.allGiven, ← List.append_assoc]
      exact ih (h.after call)

theorem tracks_run (calls : List Call) :
    Tracks (calls.flatMap Call.registered) (Call.allGiven [] calls) (empty.run calls) :=
  tracks_empty.run calls

/-- The name of a number is the one it was given last, then its structural name, then the name
that its own language has for it. -/
theorem Tracks.name? (h : Tracks lexicons given composer) (number : TokenId) :
    composer.vocabulary.name? number =
      (lastGiven given number).or ((TokenId.structuralName? number).or
        ((composer.vocabulary.resolve number).bind fun kind =>
          lexicons[kind.1]?.bind fun lexicon => lexicon.name? kind.2)) := by
  rw [Vocabulary.name?, h.names, resolve]
  congr 2
  cases howner : composer.vocabulary.owner? number with
  | none => rfl
  | some owner =>
      obtain ⟨nth, lexicon, id⟩ := owner
      obtain ⟨hget, -⟩ := (owner?_eq_some_iff h.lays).mp howner
      simp only [Option.bind_some, Option.map_some, hget]

/-- Names do not change where numbers lead. -/
theorem Tracks.resolve_after (h : Tracks lexicons given composer) {call : Call}
    (hcall : call.registered = []) (number : TokenId) :
    (composer.after call).vocabulary.resolve number = composer.vocabulary.resolve number := by
  have hafter := h.after call
  rw [hcall, List.append_nil] at hafter
  apply Option.ext
  rintro ⟨nth, id⟩
  rw [resolve_eq_some_iff h.lays, resolve_eq_some_iff hafter.lays]

/-- A name that clashes is told apart from the names before it, and no other name changes. -/
theorem Tracks.name?_separate (h : Tracks lexicons given composer) {nth : Nat}
    {lexicon : Lexicon} (hget : lexicons[nth]? = some lexicon) :
    (∀ id own, Clashes (lexicons.take nth) lexicon id own →
      (composer.after (.separate nth)).vocabulary.name? (id + room (lexicons.take nth)) =
        some (lexicon.language ++ "-" ++ own)) ∧
    ∀ number, (∀ id own, Clashes (lexicons.take nth) lexicon id own →
        number ≠ id + room (lexicons.take nth)) →
      (composer.after (.separate nth)).vocabulary.name? number =
        composer.vocabulary.name? number := by
  have hafter := h.after (.separate nth)
  rw [Call.registered, List.append_nil] at hafter
  have hmem : ∀ number name, (number, name) ∈ (Call.separate nth).given lexicons ↔
      ∃ id own, Clashes (lexicons.take nth) lexicon id own ∧
        number = id + room (lexicons.take nth) ∧ name = lexicon.language ++ "-" ++ own := by
    intro number name
    rw [Call.given, hget, List.mem_map]
    constructor
    · rintro ⟨⟨id, new⟩, hentry, heq⟩
      cases heq
      obtain ⟨own, hclash, rfl⟩ := mem_clashes.mp hentry
      exact ⟨id, own, hclash, rfl, rfl⟩
    · rintro ⟨id, own, hclash, rfl, rfl⟩
      exact ⟨_, mem_clashes.mpr ⟨own, hclash, rfl⟩, rfl⟩
  refine ⟨fun id own hclash => ?_, fun number hnumber => ?_⟩
  · rw [hafter.name?, lastGiven_append,
      lastGiven_of_mem ((hmem _ _).mpr ⟨id, own, hclash, rfl, rfl⟩), Option.some_or, Option.some_or]
    intro other hother
    obtain ⟨id', own', hclash', hnumber, rfl⟩ := (hmem _ _).mp hother
    cases Nat.add_right_cancel hnumber
    cases hclash.2.2.1.symm.trans hclash'.2.2.1
    rfl
  · have hnone : lastGiven ((Call.separate nth).given lexicons) number = none := by
      refine lastGiven_eq_none fun name hgiven => ?_
      obtain ⟨id, own, hclash, heq, -⟩ := (hmem _ _).mp hgiven
      exact hnumber id own hclash heq
    rw [hafter.name?, h.name?, lastGiven_append, hnone, Option.none_or, h.resolve_after rfl]

/-! ## Names after any calls -/

/-- What is seen of a composer that has registered `lexicons` and was given the names
`given`. -/
structure Reflects (lexicons : List Lexicon) (given : List (TokenId × String))
    (composer : Composer) : Prop where
  /-- A handle was answered for each lexicon, with the room that those before it take. -/
  handles : ∀ nth, composer.handles[nth]? =
    lexicons[nth]?.map fun _ => Handle.mk nth (room (lexicons.take nth))
  /-- The table of names is ordered, -/
  sorted : Names.Sorted composer.vocabulary.names
  /-- so that searching it by halves finds what it holds -/
  searched : ∀ id, Names.search id composer.vocabulary.names =
    Names.find? id composer.vocabulary.names
  /-- and enters a name where it belongs. -/
  entered : ∀ id name, Names.enter id name composer.vocabulary.names =
    Names.insert id name composer.vocabulary.names
  /-- Where a number leads is a matter of the lexicons alone. -/
  resolves : ∀ number nth id, composer.vocabulary.resolve number = some (nth, id) ↔
    ∃ lexicon, lexicons[nth]? = some lexicon ∧ TokenId.firstKind ≤ id ∧ id ≤ lexicon.maxId ∧
      number = id + room (lexicons.take nth)
  /-- The name of a number is the one it was given last, then its structural name, then the
  name that its own language has for it. -/
  name : ∀ number, composer.vocabulary.name? number =
    (lastGiven given number).or ((TokenId.structuralName? number).or
      ((composer.vocabulary.resolve number).bind fun kind =>
        lexicons[kind.1]?.bind fun lexicon => lexicon.name? kind.2))

/-- What one more call does to a composer that has registered `lexicons`. -/
structure Answers (lexicons : List Lexicon) (composer : Composer) : Prop where
  /-- Refused is only a name for a kind that the language does not have. -/
  refused : ∀ call fault, composer.call call = .error fault ↔
    ∃ nth id name lexicon, call = .override nth id name ∧ lexicons[nth]? = some lexicon ∧
      (TokenId.isStructural id ∨ lexicon.maxId < id) ∧
      fault = .outsideVocabulary id lexicon.language
  /-- What is refused changes nothing. -/
  unchanged : ∀ call fault, composer.call call = .error fault → composer.after call = composer
  /-- Names do not change where numbers lead. -/
  resolved : ∀ call, call.registered = [] → ∀ number,
    (composer.after call).vocabulary.resolve number = composer.vocabulary.resolve number
  /-- Names that clash are overridden one after the other, and none of these is refused. -/
  stepwise : ∀ nth lexicon, lexicons[nth]? = some lexicon →
    composer.vocabulary.overrideCollisions ⟨nth, room (lexicons.take nth)⟩ =
      (clashes (lexicons.take nth) lexicon).foldlM (fun vocabulary entry =>
        vocabulary.override ⟨nth, room (lexicons.take nth)⟩ entry.1 entry.2) composer.vocabulary
  /-- A name that clashes is told apart by its language, -/
  separated : ∀ nth lexicon, lexicons[nth]? = some lexicon →
    ∀ id own, Clashes (lexicons.take nth) lexicon id own →
      (composer.after (.separate nth)).vocabulary.name? (id + room (lexicons.take nth)) =
        some (lexicon.language ++ "-" ++ own)
  /-- and every other name is left as it was. -/
  kept : ∀ nth lexicon, lexicons[nth]? = some lexicon →
    ∀ number, (∀ id own, Clashes (lexicons.take nth) lexicon id own →
        number ≠ id + room (lexicons.take nth)) →
      (composer.after (.separate nth)).vocabulary.name? number =
        composer.vocabulary.name? number

theorem Tracks.reflects (h : Tracks lexicons given composer) :
    Reflects lexicons given composer where
  handles := h.handles
  sorted := h.sorted
  searched := Names.search_eq h.sorted
  entered := Names.enter_eq h.sorted
  resolves _ _ _ := resolve_eq_some_iff h.lays
  name := h.name?

theorem Tracks.answers (h : Tracks lexicons given composer) : Answers lexicons composer where
  refused call fault := h.call_eq_error_iff call fault
  unchanged call fault hrefused := by rw [Composer.after, hrefused]
  resolved _ hcall := h.resolve_after hcall
  stepwise nth lexicon hget := by
    have hchain := (h.chain_get hget).2
    have hentries : ∀ entry ∈ clashes (lexicons.take nth) lexicon,
        TokenId.firstKind ≤ entry.1 ∧ entry.1 ≤ lexicon.maxId := by
      intro entry hmem
      obtain ⟨own, hclash, -⟩ := mem_clashes.mp hmem
      exact ⟨hclash.1, hclash.2.1⟩
    rw [h.overrideCollisions_eq hget, foldlM_override _ hchain hentries, Call.given, hget]
  separated _ _ hget := (h.name?_separate hget).1
  kept _ _ hget := (h.name?_separate hget).2

/-- After any calls the table of names is ordered, and looking a name up in it and among the
languages finds the name that was given last. What one more call does to the names is what it
asks for: numbers lead where they led, a refused call changes nothing, and names that clash
with those of earlier languages are told apart while all others stay. -/
theorem names_last_written (calls : List Call) :
    Reflects (calls.flatMap Call.registered) (Call.allGiven [] calls) (empty.run calls) ∧
      Answers (calls.flatMap Call.registered) (empty.run calls) :=
  ⟨(tracks_run calls).reflects, (tracks_run calls).answers⟩

/-- A name that clashes is told apart, and a kind that a language does not have is given no
name. -/
example :
    (List.range 8).map (empty.run
      [.register ⟨"a", 3, fun id => ["", "", "x", "y"][id]?⟩,
        .register ⟨"b", 3, fun id => ["", "", "y", "z"][id]?⟩,
        .separate 1, .override 0 3 "w", .override 1 4 "v"]).vocabulary.name? =
      [some "end-of-chunk", some "end-of-line", some "x", some "w", none, none, some "b-y",
        some "z"] := by
  decide +kernel

end Composer

end PageLexing
