import Mathlib.Data.List.Nodup
import PageLexing.Page.Encoding
import PageLexing.Proofs.Json

/-!
# States survive as JSON

A state that is written as a JSON text is the state that the text holds, whatever the state is:
it need not be one that a run can reach. All that is asked of it is that its numbers fit, 64
bits for lengths, 32 for the viable prefixes and 16 for the class of a token. So no two states
have the same text.

Each type of the state gets one statement, `Json.Kept`, on what is written of its values. The
statement on a record follows from those on its fields. A variant needs that the names of all
variants of its type are different, and that what it carries is not `null`, because a variant
that carries nothing may be written so.

## Main results

* `Json.kept_of_fields`, `Json.kept_of_name`, `Json.Kept.variant` — records and variants.
* `Markup.State.kept`, `Tag.State.kept`, `Script.State.kept`, `Probe.kept` — the variants.
* `Page.State.kept` — whole states.
* `Page.State.toText_holds_storable` — a text holds the state it was written for, and no
  other state has that text.
-/

namespace PageLexing

namespace Json

/-- What is written of the value can stand in a text, is not `null`, and is read back. -/
structure Kept {α : Type} (write : α → Json) (read : Json → Option α) (value : α) : Prop where
  writable : (write value).Writable
  ne_null : write value ≠ .null
  read_write : read (write value) = some value

/-! ## Numbers -/

theorem kept_ofNat {bound n : Nat} (h : n < bound) : Kept ofNat (nat? bound) n where
  writable := by
    rw [ofNat, Writable]
    exact ⟨n, rfl⟩
  ne_null := nofun
  read_write := nat?_ofNat h

theorem kept_ofByte (b : UInt8) : Kept ofByte byte? b where
  writable := (kept_ofNat b.toNat_lt).writable
  ne_null := nofun
  read_write := by
    have hread := nat?_ofNat (show b.toNat < UInt8.size from b.toNat_lt)
    rw [byte?, ofByte, hread, Option.map_some, UInt8.ofNat_toNat]

theorem writable_bool (value : Bool) : (Json.bool value).Writable := by
  rw [Writable]
  trivial

/-! ## Records -/

theorem writable_ofFields {fields : List (String × Json)}
    (h : ∀ field ∈ fields, field.2.Writable) : (ofFields fields).Writable := by
  rw [ofFields, Writable]
  induction fields with
  | nil =>
      rw [List.map_nil, WritableMembers]
      trivial
  | cons field fields ih =>
      rw [List.map_cons, WritableMembers]
      exact ⟨rfl, h field List.mem_cons_self, ih fun f hf => h f (List.mem_cons_of_mem _ hf)⟩

variable {α : Type} {write : α → Json} {read : Json → Option α}

/-- A record survives if its type reads it from its fields. -/
theorem kept_of_fields {value : α} {fields : List (String × Json)} (names : List String)
    (spare : Nat) (hwrite : write value = ofFields fields)
    (hnames : fields.map Prod.fst = names) (hnodup : names.Nodup)
    (hfields : ∀ field ∈ fields, field.2.Writable)
    (hread : ∀ json, json.fields? names spare = some (fields.map (fun field => some field.2)) →
      read json = some value) : Kept write read value := by
  subst hnames
  constructor
  · rw [hwrite]
    exact writable_ofFields hfields
  · rw [hwrite]
    nofun
  · rw [hwrite]
    exact hread _ (fields?_ofFields spare hnodup)

theorem writable_ofOption {value : Option α} (h : ∀ v ∈ value, Kept write read v) :
    (ofOption write value).Writable := by
  cases value with
  | none =>
      rw [ofOption, Writable]
      trivial
  | some v => exact (h v rfl).writable

/-- What is written of an optional value is told apart from `null`. -/
theorem nullable_ofOption {value : Option α} (h : ∀ v ∈ value, Kept write read v) :
    nullable read (some (ofOption write value)) = some value := by
  cases value with
  | none => rfl
  | some v =>
      obtain ⟨-, hnull, hread⟩ := h v rfl
      unfold nullable
      split
      · contradiction
      · rename_i heq
        exact absurd (Option.some.inj heq) hnull
      · rename_i json _ heq
        have hjson : write v = json := Option.some.inj heq
        rw [← hjson, hread]
        rfl

/-! ## Variants -/

section Variants

variable {all : List α} {nameOf : α → String}

theorem writable_ofString (text : String) : (ofString text).Writable := by
  rw [ofString, Writable]
  rfl

/-- The name of a variant is read back if no other variant has it. -/
theorem plain?_ofString {value : α} (h : (all.map nameOf).Nodup) (hmem : value ∈ all) :
    plain? all nameOf (ofString (nameOf value)) = some value :=
  named?_of_injective hmem fun _ ha _ hb heq => List.inj_on_of_nodup_map h ha hb heq

/-- A variant that carries nothing survives, if its type reads names before anything else. -/
theorem kept_of_name {value : α} (h : (all.map nameOf).Nodup) (hmem : value ∈ all)
    (hwrite : write value = ofString (nameOf value))
    (hread : ∀ json, plain? all nameOf json = some value → read json = some value) :
    Kept write read value := by
  constructor
  · rw [hwrite]
    exact writable_ofString _
  · rw [hwrite]
    nofun
  · rw [hwrite]
    exact hread _ (plain?_ofString h hmem)

/-- A variant that carries something is none that carries nothing. -/
theorem plain?_ofVariant {name : String} {json : Json} (h : json ≠ .null) :
    plain? all nameOf (ofVariant name json) = none := by
  simp only [plain?, ofVariant, ofFields, List.map_cons, List.map_nil, variant?]
  split
  · rename_i heq
    cases heq
  · rename_i heq
    cases heq
    contradiction
  · rfl

theorem carried?_ofVariant_of_ne {name found : String} {json : Json} (h : found ≠ name) :
    carried? name read (ofVariant found json) = none := by
  simp only [carried?, ofVariant, ofFields, List.map_cons, List.map_nil, variant?, if_neg h]

theorem writable_ofVariant {name : String} {json : Json} (h : json.Writable) :
    (ofVariant name json).Writable :=
  writable_ofFields fun field hmem => by
    rw [List.mem_singleton.mp hmem]
    exact h

/-- A variant survives if what it carries does, and if its type reads that under its name. -/
theorem Kept.variant {β : Type} {inner : β → Json} {readInner : Json → Option β} {carried : β}
    {name : String} (make : β → α) (h : Kept inner readInner carried)
    (hwrite : write (make carried) = ofVariant name (inner carried))
    (hread : ∀ json, json ≠ .null → read (ofVariant name json) = (readInner json).map make) :
    Kept write read (make carried) := by
  constructor
  · rw [hwrite]
    exact writable_ofVariant h.writable
  · rw [hwrite]
    nofun
  · rw [hwrite, hread _ h.ne_null, h.read_write]
    rfl

end Variants

end Json

open Json

/-! ## Nestings and languages -/

theorem Nesting.kept (nesting : Nesting) :
    Kept (fun n => ofString (Nesting.name n)) (plain? Nesting.all Nesting.name) nesting :=
  kept_of_name (by decide) (by cases nesting <;> decide) rfl fun _ h => h

namespace Markup

theorem Gap.kept (gap : Gap) :
    Kept (fun g => ofString (Gap.name g)) (plain? Gap.all Gap.name) gap :=
  kept_of_name (by decide) (by cases gap <;> decide) rfl fun _ h => h

/-- The names of all states are different. -/
theorem State.nodup_names : (State.plain.map State.name).Nodup := by decide

/-- A state survives, and so do its gap and its quote. -/
theorem State.kept (state : State) : Kept State.toJson State.ofJson? state := by
  cases state with
  | blank gap =>
      refine gap.kept.variant blank rfl fun json hnull => ?_
      simp [ofJson?, name, plain?_ofVariant hnull, carried?_ofVariant_of_ne]
  | quoted q =>
      refine (kept_ofByte q).variant quoted rfl fun json hnull => ?_
      simp [ofJson?, name, plain?_ofVariant hnull, carried?_ofVariant_of_ne]
  | _ => exact kept_of_name nodup_names (by decide) rfl fun json h => by rw [ofJson?, h]; rfl

end Markup

namespace Tag

theorem Gap.kept (gap : Gap) :
    Kept (fun g => ofString (Gap.name g)) (plain? Gap.all Gap.name) gap :=
  kept_of_name (by decide) (by cases gap <;> decide) rfl fun _ h => h

theorem State.nodup_names : (State.plain.map State.name).Nodup := by decide

theorem State.kept (state : State) : Kept State.toJson State.ofJson? state := by
  cases state with
  | blank gap =>
      refine gap.kept.variant blank rfl fun json hnull => ?_
      simp [ofJson?, name, plain?_ofVariant hnull, carried?_ofVariant_of_ne]
  | quoted q =>
      refine (kept_ofByte q).variant quoted rfl fun json hnull => ?_
      simp [ofJson?, name, plain?_ofVariant hnull, carried?_ofVariant_of_ne]
  | escaped q =>
      refine (kept_ofByte q).variant escaped rfl fun json hnull => ?_
      simp [ofJson?, name, plain?_ofVariant hnull, carried?_ofVariant_of_ne]
  | _ => exact kept_of_name nodup_names (by decide) rfl fun json h => by rw [ofJson?, h]; rfl

end Tag

namespace Script

theorem State.nodup_names : (State.plain.map State.name).Nodup := by decide

theorem State.kept (state : State) : Kept State.toJson State.ofJson? state := by
  cases state with
  | quoted b =>
      refine (kept_ofByte b).variant quoted rfl fun json hnull => ?_
      simp [ofJson?, name, plain?_ofVariant hnull, carried?_ofVariant_of_ne]
  | escaped b =>
      refine (kept_ofByte b).variant escaped rfl fun json hnull => ?_
      simp [ofJson?, name, plain?_ofVariant hnull, carried?_ofVariant_of_ne]
  | operator b =>
      refine (kept_ofByte b).variant operator rfl fun json hnull => ?_
      simp [ofJson?, name, plain?_ofVariant hnull, carried?_ofVariant_of_ne]
  | _ => exact kept_of_name nodup_names (by decide) rfl fun json h => by rw [ofJson?, h]; rfl

end Script

/-! ## Scans, tokens and probes -/

/-- A scan survives if its state does and the number of its bytes fits. -/
theorem Scan.kept {σ : Type} {write : σ → Json} {read : Json → Option σ} {scan : Scan σ}
    (hstate : Kept write read scan.state) (hread : scan.read < UInt64.size) :
    Kept (Scan.toJson write) (Scan.ofJson? read) scan := by
  have hlength := kept_ofNat hread
  refine kept_of_fields ["state", "prescan"] 0 rfl rfl (by decide) ?_ fun json hfields => ?_
  · simp only [List.forall_mem_cons]
    exact ⟨hstate.writable, hlength.writable, nofun⟩
  · simp only [Scan.ofJson?, hfields, List.map_cons, List.map_nil, required, length?,
      Option.bind_eq_bind, Option.bind_some, hstate.read_write, hlength.read_write]

/-- The numbers of the token fit. -/
structure Token.Storable (token : Token) : Prop where
  id : token.id < UInt16.size
  len : token.len < UInt64.size

theorem Token.kept {token : Token} (h : token.Storable) :
    Kept Token.toJson Token.ofJson? token := by
  have hid := kept_ofNat h.id
  have hlen := kept_ofNat h.len
  refine kept_of_fields ["id", "len"] 0 rfl rfl (by decide) ?_ fun json hfields => ?_
  · simp only [List.forall_mem_cons]
    exact ⟨hid.writable, hlen.writable, nofun⟩
  · simp only [Token.ofJson?, hfields, List.map_cons, List.map_nil, required, length?,
      Option.bind_eq_bind, Option.bind_some, hid.read_write, hlen.read_write]

namespace Probe

/-- The numbers of the probe fit. -/
def Storable : Probe → Prop
  | tagPrefix _ matched viable => matched < UInt64.size ∧ viable < UInt32.size
  | _ => True

theorem nodup_names : (plain.map name).Nodup := by decide

/-- What the probe of a prefix carries is read back as the probe. -/
theorem kept_tagPrefix (closing : Bool) {matched viable : Nat} (hmatched : matched < UInt64.size)
    (hviable : viable < UInt32.size) :
    Kept (fun _ => ofFields [("closing", .bool closing), ("matched", ofNat matched),
      ("viable", ofNat viable)]) tagPrefixOfJson? (tagPrefix closing matched viable) := by
  have hmatched := kept_ofNat hmatched
  have hviable := kept_ofNat hviable
  refine kept_of_fields ["closing", "matched", "viable"] 0 rfl rfl (by decide) ?_
    fun json hfields => ?_
  · simp only [List.forall_mem_cons]
    exact ⟨writable_bool _, hmatched.writable, hviable.writable, nofun⟩
  · simp only [tagPrefixOfJson?, hfields, List.map_cons, List.map_nil, required, length?, bool?,
      Option.bind_eq_bind, Option.bind_some, hmatched.read_write, hviable.read_write]

theorem kept {probe : Probe} (h : probe.Storable) : Kept toJson ofJson? probe := by
  cases probe with
  | tagPrefix closing matched viable =>
      refine (kept_tagPrefix closing h.1 h.2).variant id rfl fun json hnull => ?_
      simp [ofJson?, name, plain?_ofVariant hnull]
  | _ => exact kept_of_name nodup_names (by decide) rfl fun json h => by rw [ofJson?, h]; rfl

end Probe

/-! ## Pages -/

namespace Page

/-- The numbers of the lookahead fit. -/
structure Lookahead.Storable (lookahead : Lookahead) : Prop where
  candidate : ∀ token ∈ lookahead.candidate, token.Storable
  probeAt : lookahead.probeAt < UInt64.size
  probe : lookahead.probe.Storable

theorem Lookahead.kept {lookahead : Lookahead} (h : lookahead.Storable) :
    Kept Lookahead.toJson Lookahead.ofJson? lookahead := by
  have hcandidate : ∀ token ∈ lookahead.candidate, Kept Token.toJson Token.ofJson? token :=
    fun token hmem => Token.kept (h.candidate token hmem)
  have hprobeAt := kept_ofNat h.probeAt
  have hprobe := Probe.kept h.probe
  refine kept_of_fields ["candidate", "probe_at", "probe"] 0 rfl rfl (by decide) ?_
    fun json hfields => ?_
  · simp only [List.forall_mem_cons]
    exact ⟨writable_ofOption hcandidate, hprobeAt.writable, hprobe.writable, nofun⟩
  · simp only [Lookahead.ofJson?, hfields, List.map_cons, List.map_nil, required, length?,
      Option.bind_eq_bind, Option.bind_some, nullable_ofOption hcandidate, hprobeAt.read_write,
      hprobe.read_write]

namespace State

/-- All numbers of the state fit: 64 bits for lengths, 32 for viable prefixes and 16 for the
class of a token. -/
structure Storable (state : State) : Prop where
  host : state.host.read < UInt64.size
  tag : ∀ scan ∈ state.tag, scan.read < UInt64.size
  script : ∀ scan ∈ state.script, scan.read < UInt64.size
  lookahead : ∀ lookahead ∈ state.lookahead, lookahead.Storable
  prescan : state.prescan < UInt64.size
  probed : state.probed < UInt64.size

/-- A state survives if its numbers fit. -/
theorem kept {state : State} (h : state.Storable) : Kept toJson ofJson? state := by
  have hmode := state.nesting.kept
  have hhost := Scan.kept (Markup.State.kept state.host.state) h.host
  have htag : ∀ scan ∈ state.tag,
      Kept (Scan.toJson Tag.State.toJson) (Scan.ofJson? Tag.State.ofJson?) scan :=
    fun scan hmem => Scan.kept (Tag.State.kept scan.state) (h.tag scan hmem)
  have hscript : ∀ scan ∈ state.script,
      Kept (Scan.toJson Script.State.toJson) (Scan.ofJson? Script.State.ofJson?) scan :=
    fun scan hmem => Scan.kept (Script.State.kept scan.state) (h.script scan hmem)
  have hlookahead : ∀ lookahead ∈ state.lookahead,
      Kept Lookahead.toJson Lookahead.ofJson? lookahead :=
    fun lookahead hmem => Lookahead.kept (h.lookahead lookahead hmem)
  have hprescan := kept_ofNat h.prescan
  have hprobed := kept_ofNat h.probed
  refine kept_of_fields ["mode", "host", "tag", "script", "lookahead", "prescan", "probed"] 1
    rfl rfl (by decide) ?_ fun json hfields => ?_
  · simp only [List.forall_mem_cons]
    exact ⟨hmode.writable, hhost.writable, writable_ofOption htag, writable_ofOption hscript,
      writable_ofOption hlookahead, hprescan.writable, hprobed.writable, nofun⟩
  · simp only [ofJson?, hfields, List.map_cons, List.map_nil, required, defaulted, length?,
      Option.bind_eq_bind, Option.bind_some, hmode.read_write, hhost.read_write,
      nullable_ofOption htag, nullable_ofOption hscript, nullable_ofOption hlookahead,
      hprescan.read_write, hprobed.read_write]

/-- The text of a state holds the state, and is the text of no other state. -/
theorem toText_holds_storable {state : State} (h : state.Storable) :
    ofText? state.toText = some state ∧
      ∀ other : State, other.Storable → other.toText = state.toText → other = state := by
  have hholds : ∀ {s : State}, s.Storable → ofText? s.toText = some s := by
    intro s hs
    have hkept := kept hs
    rw [ofText?, toText, ofText?_toText hkept.writable]
    exact hkept.read_write
  refine ⟨hholds h, fun other hother heq => ?_⟩
  have hsame : ofText? other.toText = some state := heq ▸ hholds h
  exact Option.some.inj ((hholds hother).symm.trans hsame)

/-- A state that no run leads to. Each language is in the middle of a token, a probe of all 32
prefixes is undecided behind a slash, and every number is as large as it may be. -/
def crowded : State where
  nesting := .hostTagScript
  host := ⟨.quoted 255, 18446744073709551615⟩
  tag := some ⟨.escaped 34, 18446744073709551615⟩
  script := some ⟨.operator 60, 18446744073709551615⟩
  lookahead := some ⟨some ⟨65535, 18446744073709551615⟩, 18446744073709551615,
    .tagPrefix true 18446744073709551615 4294967295⟩
  prescan := 18446744073709551615
  probed := 18446744073709551615

theorem storable_crowded : crowded.Storable where
  host := by decide
  tag := by rintro _ ⟨⟩; decide
  script := by rintro _ ⟨⟩; decide
  lookahead := by
    rintro _ ⟨⟩
    refine ⟨?_, by decide, by decide, by decide⟩
    rintro _ ⟨⟩
    exact ⟨by decide, by decide⟩
  prescan := by decide
  probed := by decide

theorem storable_initial : initial.Storable where
  host := by decide
  tag := nofun
  script := nofun
  lookahead := nofun
  prescan := by decide
  probed := by decide

/-- The text of a state with a number at each limit holds that state, and is not the text of the
initial state. -/
theorem toText_holds_crowded :
    crowded.Storable ∧ initial.Storable ∧ ofText? crowded.toText = some crowded ∧
      initial.toText ≠ crowded.toText := by
  obtain ⟨hholds, hunique⟩ := toText_holds_storable storable_crowded
  refine ⟨storable_crowded, storable_initial, hholds, fun heq => ?_⟩
  exact absurd (hunique initial storable_initial heq) (by decide)

end State

end Page

end PageLexing
