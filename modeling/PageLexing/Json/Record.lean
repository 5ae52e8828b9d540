import PageLexing.Json

/-!
# Records and variants in JSON

How structures and inductive values are laid out in JSON. A record is an object with a
member for each field, in any order and among others that do not matter, or the array of
its fields in order. A variant is its name, or an object whose only member has that name
and holds what the variant carries; a variant that carries nothing holds `null` there.

## Main results

* `fields?_ofFields` — the fields of a written record are found again.
-/

namespace PageLexing.Json

/-! ## Records -/

/-- The values of the members called `name`. -/
def valuesOf (name : String) (members : List (Option String × Json)) : List Json :=
  (members.filter (fun entry => entry.1 == some name)).map Prod.snd

/-- The values of the named fields of a record, where an object may leave out any field
and an array the last `spare` of them. A field that is given twice is refused, and so is a
member whose name is no text. -/
def fields? (names : List String) (spare : Nat) : Json → Option (List (Option Json))
  | .object members =>
      if members.any (fun entry => entry.1.isNone) then none
      else if names.any (fun name => 1 < (valuesOf name members).length) then none
      else some (names.map (fun name => (valuesOf name members).head?))
  | .array elements =>
      if elements.length ≤ names.length ∧ names.length ≤ elements.length + spare then
        some (elements.map some ++ List.replicate (names.length - elements.length) none)
      else none
  | _ => none

/-- A field that has to be there. -/
def required {α : Type} (read : Json → Option α) (field : Option Json) : Option α :=
  field.bind read

/-- A field that may be absent or `null`. -/
def nullable {α : Type} (read : Json → Option α) : Option Json → Option (Option α)
  | none | some .null => some none
  | some json => (read json).map some

/-- A field that may be absent, but not `null`. -/
def defaulted {α : Type} (value : α) (read : Json → Option α) : Option Json → Option α
  | none => some value
  | some json => read json

/-- The JSON of an optional value. -/
def ofOption {α : Type} (write : α → Json) : Option α → Json
  | none => .null
  | some value => write value

private theorem valuesOf_ofFields {fields : List (String × Json)} {field : String × Json}
    (h : (fields.map Prod.fst).Nodup) (hmem : field ∈ fields) :
    valuesOf field.1 (fields.map (fun entry => (some entry.1, entry.2))) = [field.2] := by
  induction fields with
  | nil => simp at hmem
  | cons head rest ih =>
      rw [List.map_cons, List.nodup_cons] at h
      have hrest : ∀ {name : String}, name ∉ rest.map Prod.fst →
          valuesOf name (rest.map (fun entry => (some entry.1, entry.2))) = [] := by
        intro name hname
        simp only [valuesOf, List.map_eq_nil_iff, List.filter_eq_nil_iff]
        intro entry hentry
        obtain ⟨found, hfound, rfl⟩ := List.mem_map.mp hentry
        simp only [beq_iff_eq, Option.some.injEq]
        rintro rfl
        exact hname (List.mem_map_of_mem hfound)
      rcases List.mem_cons.mp hmem with rfl | hmem
      · simpa [valuesOf] using hrest h.1
      · have hne : head.1 ≠ field.1 := fun heq => h.1 (heq ▸ List.mem_map_of_mem hmem)
        simpa [valuesOf, hne] using ih h.2 hmem

/-- The fields of a written record are found again. -/
theorem fields?_ofFields {fields : List (String × Json)} (spare : Nat)
    (h : (fields.map Prod.fst).Nodup) :
    fields? (fields.map Prod.fst) spare (ofFields fields)
      = some (fields.map (fun field => some field.2)) := by
  have hvalues : ∀ field ∈ fields,
      valuesOf field.1 (fields.map (fun entry => (some entry.1, entry.2))) = [field.2] :=
    fun _ hmem => valuesOf_ofFields h hmem
  simp only [fields?, ofFields]
  rw [if_neg (by simp), if_neg ?_]
  · rw [List.map_map]
    refine congrArg some (List.map_congr_left fun field hmem => ?_)
    simp [hvalues field hmem]
  · simp only [List.any_map, List.any_eq_true, not_exists, not_and]
    intro field hmem
    simp [hvalues field hmem]

/-! ## Variants -/

/-- The name of a variant and what the JSON holds for it, if it is given as an object. -/
def variant? : Json → Option (String × Option Json)
  | .string (some name) => some (name, none)
  | .object [(some name, value)] => some (name, some value)
  | _ => none

/-- Among `all`, the value called `name`. -/
def named? {α : Type} (all : List α) (nameOf : α → String) (name : String) : Option α :=
  all.find? (fun value => nameOf value == name)

/-- A variant that carries nothing. -/
def plain? {α : Type} (all : List α) (nameOf : α → String) (json : Json) : Option α :=
  match json.variant? with
  | some (name, none) | some (name, some .null) => named? all nameOf name
  | _ => none

/-- A variant called `name` that carries a value. -/
def carried? {α : Type} (name : String) (read : Json → Option α) (json : Json) : Option α :=
  match json.variant? with
  | some (found, some value) => if found = name then read value else none
  | _ => none

/-- The JSON of a variant that carries a value. -/
def ofVariant (name : String) (value : Json) : Json := ofFields [(name, value)]

theorem named?_of_injective {α : Type} {all : List α} {nameOf : α → String} {value : α}
    (hmem : value ∈ all)
    (h : ∀ a ∈ all, ∀ b ∈ all, nameOf a = nameOf b → a = b) :
    named? all nameOf (nameOf value) = some value := by
  unfold named?
  cases hfind : all.find? (fun a => nameOf a == nameOf value) with
  | none =>
      have := List.find?_eq_none.mp hfind value hmem
      simp at this
  | some found =>
      have hname : nameOf found = nameOf value := by simpa using List.find?_some hfind
      rw [h found (List.mem_of_find?_eq_some hfind) value hmem hname]

@[simp] theorem carried?_ofVariant {α : Type} (name : String) (read : Json → Option α)
    (value : Json) : carried? name read (ofVariant name value) = read value := by
  simp [carried?, ofVariant, ofFields, variant?]

end PageLexing.Json
