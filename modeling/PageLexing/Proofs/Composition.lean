import Mathlib.Data.List.Basic
import PageLexing.Vocabulary

/-!
# Several languages in one number space

The lexicons that are registered one after the other get stretches of numbers that follow one
another: each is as long as its lexicon, the two structural numbers included, and its shift is
the room that was taken before it. A number is owned by the last language whose shift does not
exceed it, if it is then no structural number and no higher than that language goes; so it is
owned by the language in whose stretch it lies, and by no other.

No lexicon has to be large. One whose highest number is a structural one owns nothing, and its
stretch is a hole in the space, like the structural slots of all others.

## Main results

* `owner?_eq_some_iff` — who owns a number.
* `owner?_append` — lexicons that are registered later take no numbers away.
* `composed_registerAll` — the numbers of any lexicons in one space.
-/

namespace PageLexing

namespace Lexicon

/-- How many numbers lexicons take, one after the other. -/
def room : List Lexicon → Nat
  | [] => 0
  | lexicon :: rest => lexicon.maxId + 1 + room rest

@[simp] theorem room_nil : room [] = 0 := rfl

@[simp] theorem room_cons (lexicon : Lexicon) (rest : List Lexicon) :
    room (lexicon :: rest) = lexicon.maxId + 1 + room rest := rfl

@[simp] theorem room_append (front rest : List Lexicon) :
    room (front ++ rest) = room front + room rest := by
  induction front with
  | nil => simp
  | cons lexicon front ih => simp [ih, Nat.add_assoc]

theorem room_take_le (lexicons : List Lexicon) (k : Nat) :
    room (lexicons.take k) ≤ room lexicons := by
  conv => rhs; rw [← List.take_append_drop k lexicons]
  rw [room_append]
  exact Nat.le_add_right _ _

/-- The stretch of a lexicon lies behind those of the lexicons before it, and before those of
the lexicons behind it. -/
theorem room_take_add_lt {lexicons : List Lexicon} {k : Nat} {lexicon : Lexicon}
    (h : lexicons[k]? = some lexicon) {n : Nat} (hn : k < n) :
    room (lexicons.take k) + lexicon.maxId < room (lexicons.take n) := by
  have hnext : room (lexicons.take (k + 1)) = room (lexicons.take k) + (lexicon.maxId + 1) := by
    rw [List.take_add_one, h, Option.toList_some, room_append, room_cons, room_nil, Nat.add_zero]
  have hle := room_take_le (lexicons.take n) (k + 1)
  rw [List.take_take, Nat.min_eq_left (show k + 1 ≤ n from hn)] at hle
  omega

end Lexicon

namespace Vocabulary

open Lexicon

/-! ## Layout -/

/-- Lexicons with their shifts, the first of which is `shift`. -/
def chainFrom (shift : Nat) : List Lexicon → List (Lexicon × Nat)
  | [] => []
  | lexicon :: rest => (lexicon, shift) :: chainFrom (shift + (lexicon.maxId + 1)) rest

theorem chainFrom_append (shift : Nat) (front rest : List Lexicon) :
    chainFrom shift (front ++ rest) =
      chainFrom shift front ++ chainFrom (shift + room front) rest := by
  induction front generalizing shift with
  | nil => simp [chainFrom]
  | cons lexicon front ih => simp [chainFrom, ih, Nat.add_assoc]

theorem length_chainFrom (shift : Nat) (lexicons : List Lexicon) :
    (chainFrom shift lexicons).length = lexicons.length := by
  induction lexicons generalizing shift with
  | nil => rfl
  | cons lexicon rest ih => simp [chainFrom, ih]

/-- The lexicons of a vocabulary follow one another without gaps. -/
def Lays (lexicons : List Lexicon) (vocabulary : Vocabulary) : Prop :=
  vocabulary.chain = chainFrom 0 lexicons

variable {vocabulary : Vocabulary} {lexicons : List Lexicon}

/-- The highest number is the last one for which there is room. -/
theorem maxId?_of_lays (h : Lays lexicons vocabulary) :
    vocabulary.maxId? = if lexicons = [] then none else some (room lexicons - 1) := by
  rcases List.eq_nil_or_concat lexicons with rfl | ⟨front, lexicon, rfl⟩
  · rw [maxId?, h]
    rfl
  · rw [List.concat_eq_append] at h ⊢
    rw [maxId?, h, chainFrom_append, if_neg (by simp)]
    simp [chainFrom, Nat.add_sub_assoc]

/-- A lexicon is registered behind the room that the others take. -/
theorem lays_register (h : Lays lexicons vocabulary) (lexicon : Lexicon) :
    Lays (lexicons ++ [lexicon]) (vocabulary.register lexicon).1 ∧
      (vocabulary.register lexicon).2 = ⟨lexicons.length, room lexicons⟩ := by
  have hshift : (vocabulary.maxId?.map (· + 1)).getD 0 = room lexicons := by
    rw [maxId?_of_lays h]
    by_cases hnil : lexicons = []
    · subst hnil
      rfl
    · rw [if_neg hnil]
      obtain ⟨first, rest, rfl⟩ := List.exists_cons_of_ne_nil hnil
      simp only [Option.map_some, Option.getD_some, room_cons]
      omega
  refine ⟨?_, ?_⟩
  · rw [Lays, chainFrom_append, Nat.zero_add, ← h, ← hshift]
    rfl
  · simp only [register, hshift]
    rw [h, length_chainFrom]

theorem succ_maxId? (h : Lays lexicons vocabulary) {highest : Nat}
    (hhighest : vocabulary.maxId? = some highest) : highest + 1 = room lexicons := by
  rw [maxId?_of_lays h] at hhighest
  by_cases hnil : lexicons = []
  · rw [if_pos hnil] at hhighest
    cases hhighest
  · rw [if_neg hnil] at hhighest
    cases hhighest
    obtain ⟨first, rest, rfl⟩ := List.exists_cons_of_ne_nil hnil
    rw [room_cons]
    omega

/-! ## Many registrations -/

/-- Registers lexicons one after the other. -/
def registerAll (vocabulary : Vocabulary) : List Lexicon → Vocabulary × List Handle
  | [] => (vocabulary, [])
  | lexicon :: rest =>
      let (registered, handle) := vocabulary.register lexicon
      let (all, handles) := registered.registerAll rest
      (all, handle :: handles)

/-- Registrations continue the layout, keep the names, and answer the shifts in order. -/
theorem lays_registerAll {front : List Lexicon} (h : Lays front vocabulary)
    (rest : List Lexicon) :
    Lays (front ++ rest) (vocabulary.registerAll rest).1 ∧
      (vocabulary.registerAll rest).1.names = vocabulary.names ∧
      ∀ k, (vocabulary.registerAll rest).2[k]? = rest[k]?.map
        (fun _ => Handle.mk (front.length + k) (room (front ++ rest.take k))) := by
  induction rest generalizing vocabulary front with
  | nil =>
      refine ⟨?_, rfl, fun k => ?_⟩
      · rwa [List.append_nil]
      · simp [registerAll]
  | cons lexicon rest ih =>
      obtain ⟨hlays, hhandle⟩ := lays_register h lexicon
      obtain ⟨hall, hnames, hhandles⟩ := ih hlays
      rw [List.append_assoc, List.singleton_append] at hall
      refine ⟨hall, hnames, fun k => ?_⟩
      cases k with
      | zero =>
          rw [registerAll, List.getElem?_cons_zero, List.getElem?_cons_zero, hhandle]
          simp
      | succ k =>
          rw [registerAll, List.getElem?_cons_succ, List.getElem?_cons_succ, hhandles k]
          simp [Nat.add_comm 1 k, Nat.add_assoc]

/-! ## Owners -/

/-- Below the first shift nobody owns a number. -/
theorem ownerIn_of_lt {id shift : Nat} (h : id < shift) (index : Nat) (lexicons : List Lexicon) :
    ownerIn id index (chainFrom shift lexicons) = none := by
  induction lexicons generalizing index shift with
  | nil => rfl
  | cons lexicon rest ih =>
      rw [chainFrom, ownerIn, ih (by omega), if_neg (by omega)]
      rfl

/-- What is found is one of the lexicons with its shift, which does not exceed the number. -/
theorem ownerIn_sound {id shift index place start : Nat} {lexicon : Lexicon}
    (h : ownerIn id index (chainFrom shift lexicons) = some (place, lexicon, start)) :
    ∃ k, place = index + k ∧ lexicons[k]? = some lexicon ∧
      start = shift + room (lexicons.take k) ∧ start ≤ id := by
  induction lexicons generalizing index shift with
  | nil => cases h
  | cons first rest ih =>
      rw [chainFrom, ownerIn, Option.or_eq_some_iff] at h
      rcases h with h | ⟨-, h⟩
      · obtain ⟨k, hplace, hget, hstart, hle⟩ := ih h
        refine ⟨k + 1, by omega, hget, ?_, hle⟩
        rw [hstart, List.take_succ_cons, room_cons]
        omega
      · split at h
        · cases h
          exact ⟨0, rfl, rfl, rfl, ‹_›⟩
        · cases h

/-- The lexicon in whose stretch a number lies is found. -/
theorem ownerIn_complete {id shift k : Nat} {lexicon : Lexicon}
    (hget : lexicons[k]? = some lexicon) (hle : shift + room (lexicons.take k) ≤ id)
    (hlt : id ≤ shift + room (lexicons.take k) + lexicon.maxId) (index : Nat) :
    ownerIn id index (chainFrom shift lexicons) =
      some (index + k, lexicon, shift + room (lexicons.take k)) := by
  induction lexicons generalizing index shift k with
  | nil => cases hget
  | cons first rest ih =>
      rw [chainFrom, ownerIn]
      cases k with
      | zero =>
          cases hget
          rw [List.take_zero, room_nil, Nat.add_zero] at hle hlt ⊢
          -- The shifts behind the first lexicon exceed the number.
          rw [ownerIn_of_lt (by omega), if_pos hle]
          rfl
      | succ k =>
          rw [List.take_succ_cons, room_cons] at hle hlt ⊢
          rw [ih hget (by omega) (by omega) (index + 1), Option.some_or]
          simp only [Option.some.injEq, Prod.mk.injEq, true_and]
          omega

/-- A number is owned by the lexicon in whose stretch it lies, unless it is in a structural
slot. -/
theorem owner?_eq_some_iff (h : Lays lexicons vocabulary) {number k id : Nat}
    {lexicon : Lexicon} :
    vocabulary.owner? number = some (k, lexicon, id) ↔
      lexicons[k]? = some lexicon ∧ TokenId.firstKind ≤ id ∧ id ≤ lexicon.maxId ∧
        number = id + room (lexicons.take k) := by
  have hfree : ∀ n : TokenId, (! TokenId.isStructural n) = true ↔ TokenId.firstKind ≤ n := by
    intro n
    rw [Bool.not_eq_true', TokenId.isStructural_eq_false_iff]
  rw [owner?, h]
  constructor
  · intro howner
    split at howner
    · cases howner
    · split at howner
      · cases howner
      · rename_i place found start hfound
        split at howner
        · rename_i hrange
          cases howner
          obtain ⟨k, hk, hget, hstart, hle⟩ := ownerIn_sound hfound
          rw [Nat.zero_add] at hk hstart
          subst hk hstart
          exact ⟨hget, (hfree _).mp hrange.1, hrange.2, by omega⟩
        · cases howner
  · rintro ⟨hget, hfirst, hmax, rfl⟩
    have hstructural : ¬ TokenId.isStructural (id + room (lexicons.take k)) = true := by
      rw [Bool.not_eq_true, TokenId.isStructural_eq_false_iff]
      exact Nat.le_add_right_of_le hfirst
    have hfound := @ownerIn_complete lexicons (id + room (lexicons.take k)) 0 k lexicon hget
      (by omega) (by rw [Nat.zero_add, Nat.add_comm]; exact Nat.add_le_add_left hmax _) 0
    rw [Nat.zero_add, Nat.zero_add] at hfound
    simp only [if_neg hstructural, hfound, Nat.add_sub_cancel]
    exact if_pos ⟨(hfree id).mpr hfirst, hmax⟩

/-- Where a number leads, if it leads to a language. -/
theorem resolve_eq_some_iff (h : Lays lexicons vocabulary) {number k id : Nat} :
    vocabulary.resolve number = some (k, id) ↔
      ∃ lexicon, lexicons[k]? = some lexicon ∧ TokenId.firstKind ≤ id ∧ id ≤ lexicon.maxId ∧
        number = id + room (lexicons.take k) := by
  simp only [resolve, Option.map_eq_some_iff, Prod.exists, Prod.mk.injEq]
  constructor
  · rintro ⟨_, lexicon, _, howner, rfl, rfl⟩
    exact ⟨lexicon, (owner?_eq_some_iff h).mp howner⟩
  · rintro ⟨lexicon, hlexicon⟩
    exact ⟨k, lexicon, id, (owner?_eq_some_iff h).mpr hlexicon, rfl, rfl⟩

/-- Lexicons that are registered later take no numbers away from those before them. -/
theorem owner?_append {larger : Vocabulary} {more : List Lexicon} (h : Lays lexicons vocabulary)
    (hlarger : Lays (lexicons ++ more) larger) {number : Nat} (hnumber : number < room lexicons) :
    larger.owner? number = vocabulary.owner? number := by
  apply Option.ext
  rintro ⟨k, lexicon, id⟩
  rw [owner?_eq_some_iff h, owner?_eq_some_iff hlarger]
  by_cases hk : k < lexicons.length
  · rw [List.getElem?_append_left hk, List.take_append_of_le_length (Nat.le_of_lt hk)]
  · -- What comes later starts behind all the room that was taken.
    have hroom : room lexicons ≤ room ((lexicons ++ more).take k) := by
      rw [List.take_append, List.take_of_length_le (Nat.le_of_not_lt hk), room_append]
      exact Nat.le_add_right _ _
    rw [List.getElem?_eq_none (Nat.le_of_not_lt hk)]
    constructor
    · rintro ⟨-, -, -, rfl⟩
      omega
    · rintro ⟨hnone, -⟩
      cases hnone

theorem resolve_append {larger : Vocabulary} {more : List Lexicon} (h : Lays lexicons vocabulary)
    (hlarger : Lays (lexicons ++ more) larger) {number : Nat} (hnumber : number < room lexicons) :
    larger.resolve number = vocabulary.resolve number := by
  rw [resolve, resolve, owner?_append h hlarger hnumber]

theorem name?_append {larger : Vocabulary} {more : List Lexicon} (h : Lays lexicons vocabulary)
    (hlarger : Lays (lexicons ++ more) larger) (hnames : larger.names = vocabulary.names)
    {number : Nat} (hnumber : number < room lexicons) :
    larger.name? number = vocabulary.name? number := by
  rw [name?, name?, hnames, owner?_append h hlarger hnumber]

/-! ## The whole space -/

/-- The numbers of lexicons that share a space: `handles` were answered for them, in order. -/
structure Composed (lexicons : List Lexicon) (handles : List Handle) (vocabulary : Vocabulary) :
    Prop where
  /-- The shift of each lexicon is the room that those before it take. -/
  handle : ∀ k, handles[k]? =
    lexicons[k]?.map (fun _ => Handle.mk k (room (lexicons.take k)))
  increasing : (handles.map Handle.shift).Pairwise (· < ·)
  /-- All numbers of a lexicon lie in the room that all lexicons take together. -/
  fits : ∀ (k : Nat) (handle : Handle) (lexicon : Lexicon),
    handles[k]? = some handle → lexicons[k]? = some lexicon →
      handle.shift + lexicon.maxId < room lexicons
  maxId? : vocabulary.maxId? = if lexicons = [] then none else some (room lexicons - 1)
  /-- Every kind of every lexicon has a number, from which it is found again. -/
  global : ∀ (k : Nat) (handle : Handle) (lexicon : Lexicon) (id : TokenId),
    handles[k]? = some handle → lexicons[k]? = some lexicon →
    TokenId.firstKind ≤ id → id ≤ lexicon.maxId →
      vocabulary.resolve (handle.toGlobal id) = some (k, id) ∧
        handle.toLocal (handle.toGlobal id) = id
  /-- A number that leads to a kind is the number of this kind. -/
  resolved : ∀ (number k : Nat) (id : TokenId), vocabulary.resolve number = some (k, id) →
    ∃ handle lexicon, handles[k]? = some handle ∧ lexicons[k]? = some lexicon ∧
      TokenId.firstKind ≤ id ∧ id ≤ lexicon.maxId ∧ handle.toGlobal id = number
  /-- No two kinds share a number. -/
  distinct : ∀ (k k' : Nat) (handle handle' : Handle) (lexicon lexicon' : Lexicon)
    (id id' : TokenId), handles[k]? = some handle → handles[k']? = some handle' →
    lexicons[k]? = some lexicon → lexicons[k']? = some lexicon' →
    TokenId.firstKind ≤ id → id ≤ lexicon.maxId →
    TokenId.firstKind ≤ id' → id' ≤ lexicon'.maxId →
    handle.toGlobal id = handle'.toGlobal id' → k = k' ∧ id = id'
  /-- The structural slots of a lexicon belong to nobody. -/
  slot : ∀ handle ∈ handles, ∀ slot, TokenId.isStructural slot →
    vocabulary.resolve (slot + handle.shift) = none
  /-- Nor does any number above the highest. -/
  above : ∀ number, (∀ highest, vocabulary.maxId? = some highest → highest < number) →
    vocabulary.resolve number = none
  /-- Whatever names were overridden, lexicons that are registered later change nothing for the
  numbers up to the highest. -/
  later : ∀ (names : Names) (more : List Lexicon) (number highest : Nat),
    vocabulary.maxId? = some highest → number ≤ highest →
      (registerAll { vocabulary with names := names } more).1.resolve number =
          Vocabulary.resolve { vocabulary with names := names } number ∧
        (registerAll { vocabulary with names := names } more).1.name? number =
          Vocabulary.name? { vocabulary with names := names } number

theorem toGlobal_of_le (handle : Handle) {id : TokenId} (h : TokenId.firstKind ≤ id) :
    handle.toGlobal id = id + handle.shift := by
  rw [Handle.toGlobal, if_neg]
  rwa [Bool.not_eq_true, TokenId.isStructural_eq_false_iff]

/-- Stretches do not overlap. -/
theorem eq_of_overlap {k k' : Nat} {lexicon lexicon' : Lexicon} {id id' : Nat}
    (hget : lexicons[k]? = some lexicon) (hget' : lexicons[k']? = some lexicon')
    (hle : id ≤ lexicon.maxId) (hle' : id' ≤ lexicon'.maxId)
    (h : id + room (lexicons.take k) = id' + room (lexicons.take k')) : k = k' := by
  rcases Nat.lt_trichotomy k k' with hlt | heq | hlt
  · have := room_take_add_lt hget hlt
    omega
  · exact heq
  · have := room_take_add_lt hget' hlt
    omega

/-- No kind of any lexicon has a number in a structural slot. -/
theorem resolve_slot (h : Lays lexicons vocabulary) {k slot : Nat}
    (hslot : TokenId.isStructural slot) :
    vocabulary.resolve (slot + room (lexicons.take k)) = none := by
  apply Option.eq_none_iff_forall_ne_some.mpr
  rintro ⟨k', id⟩ hresolve
  obtain ⟨lexicon, hget, hfirst, hmax, hnumber⟩ := (resolve_eq_some_iff h).mp hresolve
  have hlt : slot < 2 := of_decide_eq_true hslot
  have hfirst : (2 : Nat) ≤ id := hfirst
  by_cases hk : k' < k
  · have := room_take_add_lt hget hk
    omega
  · have hle := room_take_le (lexicons.take k') k
    rw [List.take_take, Nat.min_eq_left (Nat.le_of_not_lt hk)] at hle
    omega

/-- No kind has a number above the highest. -/
theorem resolve_above (h : Lays lexicons vocabulary) {number : Nat}
    (habove : ∀ highest, vocabulary.maxId? = some highest → highest < number) :
    vocabulary.resolve number = none := by
  apply Option.eq_none_iff_forall_ne_some.mpr
  rintro ⟨k, id⟩ hresolve
  obtain ⟨lexicon, hget, -, hmax, rfl⟩ := (resolve_eq_some_iff h).mp hresolve
  have hlt := (List.getElem?_eq_some_iff.mp hget).1
  have hroom := room_take_add_lt hget hlt
  rw [List.take_length] at hroom
  have hnil : lexicons ≠ [] := List.ne_nil_of_length_pos (Nat.zero_lt_of_lt hlt)
  have hhighest : room lexicons - 1 < id + room (lexicons.take k) :=
    habove _ (by rw [maxId?_of_lays h, if_neg hnil])
  omega

section Handles

variable {handles : List Handle}
  (hhandles : ∀ k, handles[k]? =
    lexicons[k]?.map (fun _ => Handle.mk k (room (lexicons.take k))))

include hhandles

theorem exists_lexicon_of_handle {k : Nat} {handle : Handle} (h : handles[k]? = some handle) :
    ∃ lexicon, lexicons[k]? = some lexicon ∧ handle = ⟨k, room (lexicons.take k)⟩ := by
  rw [hhandles, Option.map_eq_some_iff] at h
  obtain ⟨lexicon, hlexicon, rfl⟩ := h
  exact ⟨lexicon, hlexicon, rfl⟩

/-- Even the smallest lexicon takes a number. -/
theorem pairwise_shift : (handles.map Handle.shift).Pairwise (· < ·) := by
  rw [List.pairwise_map, List.pairwise_iff_getElem]
  intro i j hi hj hlt
  obtain ⟨lexicon, hget, hfirst⟩ :=
    exists_lexicon_of_handle hhandles (List.getElem?_eq_getElem hi)
  obtain ⟨-, -, hsecond⟩ := exists_lexicon_of_handle hhandles (List.getElem?_eq_getElem hj)
  rw [hfirst, hsecond]
  exact Nat.lt_of_le_of_lt (Nat.le_add_right _ _) (room_take_add_lt hget hlt)

theorem shift_add_maxId_lt {k : Nat} {handle : Handle} {lexicon : Lexicon}
    (h : handles[k]? = some handle) (hget : lexicons[k]? = some lexicon) :
    handle.shift + lexicon.maxId < room lexicons := by
  obtain ⟨-, -, rfl⟩ := exists_lexicon_of_handle hhandles h
  have hroom := room_take_add_lt hget (List.getElem?_eq_some_iff.mp hget).1
  rwa [List.take_length] at hroom

/-- The number of a kind leads back to the kind. -/
theorem resolve_toGlobal (hlays : Lays lexicons vocabulary) {k id : Nat} {handle : Handle}
    {lexicon : Lexicon} (h : handles[k]? = some handle) (hget : lexicons[k]? = some lexicon)
    (hfirst : TokenId.firstKind ≤ id) (hmax : id ≤ lexicon.maxId) :
    vocabulary.resolve (handle.toGlobal id) = some (k, id) := by
  obtain ⟨-, -, rfl⟩ := exists_lexicon_of_handle hhandles h
  rw [toGlobal_of_le _ hfirst]
  exact (resolve_eq_some_iff hlays).mpr ⟨lexicon, hget, hfirst, hmax, rfl⟩

/-- A number that leads to a kind is the number of this kind. -/
theorem toGlobal_of_resolve (hlays : Lays lexicons vocabulary) {number k id : Nat}
    (h : vocabulary.resolve number = some (k, id)) :
    ∃ handle lexicon, handles[k]? = some handle ∧ lexicons[k]? = some lexicon ∧
      TokenId.firstKind ≤ id ∧ id ≤ lexicon.maxId ∧ handle.toGlobal id = number := by
  obtain ⟨lexicon, hget, hfirst, hmax, rfl⟩ := (resolve_eq_some_iff hlays).mp h
  refine ⟨⟨k, room (lexicons.take k)⟩, lexicon, ?_, hget, hfirst, hmax, toGlobal_of_le _ hfirst⟩
  rw [hhandles, hget]
  rfl

/-- Two kinds with one number are the same kind. -/
theorem eq_of_toGlobal {k k' id id' : Nat} {handle handle' : Handle} {lexicon lexicon' : Lexicon}
    (h : handles[k]? = some handle) (h' : handles[k']? = some handle')
    (hget : lexicons[k]? = some lexicon) (hget' : lexicons[k']? = some lexicon')
    (hfirst : TokenId.firstKind ≤ id) (hmax : id ≤ lexicon.maxId)
    (hfirst' : TokenId.firstKind ≤ id') (hmax' : id' ≤ lexicon'.maxId)
    (hsame : handle.toGlobal id = handle'.toGlobal id') : k = k' ∧ id = id' := by
  obtain ⟨-, -, rfl⟩ := exists_lexicon_of_handle hhandles h
  obtain ⟨-, -, rfl⟩ := exists_lexicon_of_handle hhandles h'
  rw [toGlobal_of_le _ hfirst, toGlobal_of_le _ hfirst'] at hsame
  have hplace := eq_of_overlap hget hget' hmax hmax' hsame
  subst hplace
  exact ⟨rfl, Nat.add_right_cancel hsame⟩

end Handles

/-- The numbers of any lexicons that are registered one after the other, be they as small as
they may: their shifts add up, each kind of each of them has one number, each number in use
leads to one kind, and nothing of this is changed by what is registered later. -/
theorem composed_registerAll (lexicons : List Lexicon) :
    Composed lexicons (empty.registerAll lexicons).2 (empty.registerAll lexicons).1 := by
  obtain ⟨hlays, -, hhandles⟩ := @lays_registerAll empty [] rfl lexicons
  simp only [List.nil_append, List.length_nil, Nat.zero_add] at hlays hhandles
  generalize (empty.registerAll lexicons).1 = vocabulary at hlays ⊢
  generalize (empty.registerAll lexicons).2 = handles at hhandles ⊢
  exact {
    handle := hhandles
    increasing := pairwise_shift hhandles
    fits := fun _ _ _ => shift_add_maxId_lt hhandles
    maxId? := maxId?_of_lays hlays
    global := fun _ _ _ _ h hget hfirst hmax =>
      ⟨resolve_toGlobal hhandles hlays h hget hfirst hmax, Handle.toLocal_toGlobal _ _⟩
    resolved := fun _ _ _ => toGlobal_of_resolve hhandles hlays
    distinct := fun _ _ _ _ _ _ _ _ => eq_of_toGlobal hhandles
    slot := by
      intro handle hmem slot hslot
      obtain ⟨k, hget⟩ := List.mem_iff_getElem?.mp hmem
      obtain ⟨-, -, rfl⟩ := exists_lexicon_of_handle hhandles hget
      exact resolve_slot hlays hslot
    above := fun _ => resolve_above hlays
    later := by
      intro names more number highest hhighest hle
      have hnumber : number < room lexicons := by
        rw [← succ_maxId? hlays hhighest]
        exact Nat.lt_succ_of_le hle
      have hrenamed : Lays lexicons { vocabulary with names := names } := hlays
      obtain ⟨hmore, hnames, -⟩ := lays_registerAll hrenamed more
      exact ⟨resolve_append hrenamed hmore hnumber, name?_append hrenamed hmore hnames hnumber⟩ }

/-- Lexicons of structural numbers alone only leave holes. -/
example :
    (List.range 8).map (empty.registerAll
      [⟨"a", 0, fun _ => none⟩, ⟨"b", 3, fun _ => none⟩, ⟨"c", 1, fun _ => none⟩]).1.resolve =
      [none, none, none, some (1, 2), some (1, 3), none, none, none] := by
  decide

end Vocabulary

end PageLexing
