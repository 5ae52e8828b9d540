import PageLexing.Proofs.Locality

/-!
# Windows at another place

What a reader answers depends on the bytes that its window shows, from the start of the
pending token to the end of the window, and on nothing else: not on what stands before or
behind them in the buffer, and not on where in the buffer they stand. A state that is loaded
over two buffers which show the same bytes there leads to the same answers, each at its place.

The bytes that a state is loaded over need not be those that came next when it was stored. It
has to be loaded behind the bytes of the token that it has read, and then no call fails if the
token goes on with a byte of the text over which it was stored.

## Main results

* `Reader.sameAnswers_of_alike` — readers that are shown the same bytes answer the same.
* `Grammar.Resumption.Local.settled_of_stores` — a stored state may go on with every text that
  begins with what was read of its token.
* `Dialect.window_locality` — a state of a page loaded over two buffers.
-/

namespace PageLexing

variable {σ : Type}

/-! ## Grammars that see their window only -/

namespace Grammar

variable {grammar : Grammar σ}

/-- A step of the grammar depends on the bytes of its window only, for states that fit it. -/
structure Resumption.Local (resumption : grammar.Resumption) where
  /-- What was read of the pending token lies in so many bytes of it. -/
  Fits : Nat → σ → Prop
  fits_of_pending : ∀ {text : Bytes} {base state : σ} {room : Nat},
    resumption.Pending text base state → grammar.prescan state ≤ room → Fits room state
  fits_of_hold : ∀ {view : View} {state held : σ}, Fits view.room state →
    grammar.step view state = .ok (.hold held) → Fits view.room held
  fits_of_token : ∀ {view : View} {state next : σ} {token : Token}, Fits view.room state →
    grammar.step view state = .ok (.token token next) → ∀ room, Fits room next
  step_append_right : ∀ {text : Bytes} {room : Nat} {last : Bool} (behind : Bytes) {state : σ},
    Fits room state → room ≤ text.length →
      grammar.step ⟨text ++ behind, room, last⟩ state = grammar.step ⟨text, room, last⟩ state
  /-- Whether a token may be read is told from its first byte. -/
  ready_of_head : ∀ {text other : Bytes} {base : σ}, resumption.Ready text base →
    (∀ byte, other.head? = some byte → text.head? = some byte) → resumption.Ready other base

namespace Resumption.Local

variable {resumption : grammar.Resumption} (hlocal : resumption.Local)

include hlocal in
/-- Steps in windows that show the same bytes are the same. -/
theorem step_eq_of_take {text other : Bytes} {room : Nat} {last : Bool} {state : σ}
    (h : hlocal.Fits room state) (htext : room ≤ text.length) (hother : room ≤ other.length)
    (hsame : text.take room = other.take room) :
    grammar.step ⟨text, room, last⟩ state = grammar.step ⟨other, room, last⟩ state := by
  have hshown : ∀ {bytes : Bytes}, room ≤ bytes.length →
      grammar.step ⟨bytes, room, last⟩ state =
        grammar.step ⟨bytes.take room, room, last⟩ state := by
    intro bytes hbytes
    have hstep := @hlocal.step_append_right (bytes.take room) room last (bytes.drop room) state h
      (by rw [List.length_take]; omega)
    rwa [List.take_append_drop] at hstep
  rw [hshown htext, hshown hother, hsame]

/-- A window may have left `state` inside the token of `text` that is read from `base`, and
inside that of every other text that begins with what was read of it. -/
structure Settled (resumption : grammar.Resumption) (text : Bytes) (base state : σ) : Prop where
  pending : resumption.Pending text base state
  others : ∀ other : Bytes, grammar.prescan state ≤ other.length →
    other.take (grammar.prescan state) = text.take (grammar.prescan state) →
      resumption.Ready other base → resumption.Pending other base state

include hlocal in
/-- Reading on from such a state, a token is held back in all these texts, or it is completed. -/
theorem step_of_settled {text : Bytes} {base state : σ} (room : Nat) (last : Bool)
    (h : Settled resumption text base state) (hprescan : grammar.prescan state ≤ room)
    (hroom : room ≤ text.length) (hlast : last = true → room = text.length) :
    (∃ held, grammar.step ⟨text, room, last⟩ state = .ok (.hold held) ∧
        Settled resumption text base held ∧ grammar.prescan held = room ∧
        (last = true → text = [])) ∨
      ∃ token next, grammar.step ⟨text, room, last⟩ state = .ok (.token token next) ∧
        grammar.step (View.whole text) base = .ok (.token token next) ∧
        0 < token.len ∧ token.len ≤ room ∧ resumption.Ready (text.drop token.len) next := by
  rcases resumption.step room last h.pending hprescan hroom hlast with
    ⟨held, hstep, hpending, hheld, hnil⟩ | htoken
  · refine Or.inl ⟨held, hstep, ⟨hpending, ?_⟩, hheld, hnil⟩
    intro other hlength hsame hready
    rw [hheld] at hlength hsame
    cases last with
    | true =>
        -- Only at the end of an empty text the last window holds a token back.
        have hzero : grammar.prescan held = 0 := by
          rw [hnil rfl, List.length_nil] at hroom
          omega
        rw [resumption.eq_of_prescan hpending hzero]
        exact resumption.pending_of_ready hready
    | false =>
        have hbegins : other.take (grammar.prescan state) = text.take (grammar.prescan state) := by
          have htake := congrArg (List.take (grammar.prescan state)) hsame
          rwa [List.take_take, List.take_take, Nat.min_eq_left hprescan] at htake
        have hother := h.others other (Nat.le_trans hprescan hlength) hbegins hready
        have hfits := hlocal.fits_of_pending h.pending hprescan
        have hsteps : grammar.step ⟨text, room, false⟩ state =
            grammar.step ⟨other, room, false⟩ state :=
          hlocal.step_eq_of_take hfits hroom hlength hsame.symm
        rw [hstep] at hsteps
        rcases resumption.step room false hother hprescan hlength nofun with
          ⟨held', hstep', hpending', -, -⟩ | ⟨token, next, hstep', -⟩
        · rw [hstep'] at hsteps
          cases hsteps
          exact hpending'
        · rw [hstep'] at hsteps
          cases hsteps
  · exact Or.inr htoken

/-- In sessions no other states are stored. -/
def settled : grammar.Resumption where
  Ready := resumption.Ready
  Pending := Settled resumption
  initial := resumption.initial
  prescan_of_ready := resumption.prescan_of_ready
  pending_of_ready h :=
    ⟨resumption.pending_of_ready h, fun _ _ _ hready => resumption.pending_of_ready hready⟩
  ready_of_pending h := resumption.ready_of_pending h.pending
  prescan_le h := resumption.prescan_le h.pending
  eq_of_prescan h := resumption.eq_of_prescan h.pending
  step room last h := hlocal.step_of_settled room last h

end Resumption.Local

/-- In a session over `source` a state is stored while the token is pending that starts at the
position. -/
inductive Stores (grammar : Grammar σ) (source : Bytes) : Nat → σ → Prop where
  | initial : Stores grammar source 0 grammar.initial
  | answered {turns : List Turn} {answers : List (Answer σ)} {answer : Answer σ}
      (hdrive : grammar.drive source turns = .ok answers) (hmem : answer ∈ answers) :
      Stores grammar source answer.reader.offset answer.reader.store

/-- A first window that holds its token back answers nothing. -/
theorem drive_of_hold (resumption : grammar.Resumption)
    {source : Bytes} {size : Nat} {held : σ} (hsize : size ≤ source.length)
    (h : grammar.step ⟨source, size, false⟩ grammar.initial = .ok (.hold held)) :
    grammar.drive source [⟨true, false, size, false, 1⟩] =
      .ok [⟨none, Reader.window grammar source 0 size false held⟩] := by
  have hzero := resumption.prescan_of_ready (resumption.initial [])
  have henter : (Reader.new grammar).enter source 0 none ⟨true, false, size, false, 1⟩ =
      .ok (Reader.window grammar source 0 size false grammar.initial) := by
    have hload := @Reader.load_none σ grammar source (Reader.new grammar) 0 size false rfl hzero
    rw [Nat.zero_add, Nat.min_eq_left hsize] at hload
    simp only [Reader.enter, Nat.sub_zero, Nat.min_eq_left hsize, Bool.false_and, if_true]
    exact hload
  have hnext : (Reader.window grammar source 0 size false grammar.initial).next =
      .ok (none, Reader.window grammar source 0 size false held) := Reader.next_of_hold h
  have hanswers : (Reader.window grammar source 0 size false grammar.initial).answers 1 =
      .ok ([⟨none, Reader.window grammar source 0 size false held⟩],
        Reader.window grammar source 0 size false held) := Reader.answers_of_next hnext rfl
  simp only [Grammar.drive, Reader.drive, henter, hanswers, bind, Except.bind, List.append_nil]

/-- The state that the first window leaves is stored if it holds the token back. -/
theorem Stores.of_hold (resumption : grammar.Resumption)
    {source : Bytes} {size : Nat} {held : σ} (hsize : size ≤ source.length)
    (h : grammar.step ⟨source, size, false⟩ grammar.initial = .ok (.hold held)) :
    grammar.Stores source 0 held :=
  .answered (drive_of_hold resumption hsize h) (List.mem_singleton_self _)

/-- A stored state may go on with every text that begins with what was read of its token. -/
theorem Resumption.Local.settled_of_stores {resumption : grammar.Resumption}
    (hlocal : resumption.Local) {source : Bytes} {start : Nat} {state : σ}
    (h : grammar.Stores source start state) :
    ∃ base, Settled resumption (source.drop start) base state := by
  cases h with
  | initial => exact ⟨_, hlocal.settled.pending_of_ready (resumption.initial _)⟩
  | @answered turns answers answer hdrive hmem =>
      obtain ⟨answers', _, _, _, hdrive', -, -, -, hall, -, -⟩ :=
        Reader.drive_standing (Reader.new grammar) none
          (Reader.stored_initial hlocal.settled source) rfl turns
      replace hdrive' : grammar.drive source turns = .ok answers' := hdrive'
      rw [hdrive] at hdrive'
      cases hdrive'
      obtain ⟨passages, base, hstanding⟩ := (hall answer hmem).1.standing
      exact ⟨base, hstanding.pending⟩

end Grammar

/-- What an answer says, with its place told from `origin` on. -/
def Answer.told (origin : Nat) (answer : Answer σ) : Option Token × σ × Int :=
  (answer.token, answer.reader.store, (answer.reader.offset : Int) - origin)

namespace Reader

/-- The bytes that a window shows of its buffer. -/
def shown (reader : Reader σ) : Bytes := reader.ahead.take (reader.stop - reader.start)

/-- Two readers are in the same state and are shown the same bytes. -/
structure Alike (reader other : Reader σ) : Prop where
  grammar_eq : reader.grammar = other.grammar
  state_eq : reader.state = other.state
  last_eq : reader.last = other.last
  shown_eq : reader.shown = other.shown
  stop_le : reader.stop ≤ reader.buffer.length
  other_stop_le : other.stop ≤ other.buffer.length

variable {grammar : Grammar σ} {resumption : grammar.Resumption} {reader other : Reader σ}

theorem length_ahead (reader : Reader σ) :
    reader.ahead.length = reader.buffer.length - reader.start := by
  rw [reader.ahead_eq, List.length_drop]

theorem length_shown (h : reader.stop ≤ reader.buffer.length) :
    reader.shown.length = reader.stop - reader.start := by
  rw [shown, List.length_take, length_ahead]
  omega

theorem shown_behind (reader : Reader σ) (token : Token) (state : σ) :
    (reader.behind token state).shown = reader.shown.drop token.len := by
  rw [shown, shown, List.drop_take, Nat.sub_sub]
  rfl

/-- Readers that are alike make the same step. -/
theorem step_alike (hlocal : resumption.Local) (h : Alike reader other)
    (hgrammar : reader.grammar = grammar)
    (hfits : hlocal.Fits (reader.stop - reader.start) reader.state) :
    other.grammar.step other.view other.state = reader.grammar.step reader.view reader.state := by
  have hroom : other.stop - other.start = reader.stop - reader.start := by
    rw [← length_shown h.stop_le, ← length_shown h.other_stop_le, h.shown_eq]
  have hshown := h.shown_eq
  rw [shown, shown, hroom] at hshown
  rw [← h.grammar_eq, ← h.state_eq, hgrammar, view, view, ← h.last_eq, hroom]
  have hstop := h.stop_le
  have hotherStop := h.other_stop_le
  refine (hlocal.step_eq_of_take hfits ?_ ?_ hshown).symm
  · rw [length_ahead]
    omega
  · rw [length_ahead]
    omega

/-- A call of readers that are alike fails at the same bytes, or it gives the same answer and
leaves them alike. -/
theorem next_alike (hlocal : resumption.Local) (h : Alike reader other)
    (hgrammar : reader.grammar = grammar)
    (hfits : hlocal.Fits (reader.stop - reader.start) reader.state) :
    (∃ fault : Fault,
        reader.next = .error (fault.relocate reader.start reader.buffer.length) ∧
        other.next = .error (fault.relocate other.start other.buffer.length)) ∨
      ∃ token after after', reader.next = .ok (token, after) ∧
        other.next = .ok (token, after') ∧ Alike after after' ∧ after.grammar = grammar ∧
        hlocal.Fits (after.stop - after.start) after.state ∧
        after.start + other.start = after'.start + reader.start := by
  have hstep := step_alike hlocal h hgrammar hfits
  cases hresult : reader.grammar.step reader.view reader.state with
  | error fault =>
      rw [hresult] at hstep
      refine Or.inl ⟨fault, ?_, ?_⟩
      · simp only [Reader.next, hresult]
      · simp only [Reader.next, hstep]
  | ok step =>
      rw [hresult] at hstep
      refine Or.inr ?_
      cases step with
      | hold held =>
          refine ⟨none, _, _, next_of_hold hresult, next_of_hold hstep,
            ⟨h.grammar_eq, rfl, h.last_eq, h.shown_eq, h.stop_le, h.other_stop_le⟩, hgrammar, ?_,
            Nat.add_comm _ _⟩
          rw [hgrammar] at hresult
          exact hlocal.fits_of_hold hfits hresult
      | token token next =>
          refine ⟨some token, _, _, next_of_token hresult, next_of_token hstep,
            ⟨h.grammar_eq, rfl, h.last_eq, ?_, h.stop_le, h.other_stop_le⟩, hgrammar, ?_, ?_⟩
          · rw [shown_behind, shown_behind, h.shown_eq]
          · rw [hgrammar] at hresult
            exact hlocal.fits_of_token hfits hresult _
          · show reader.start + token.len + other.start = other.start + token.len + reader.start
            omega

/-- The outcomes of the same calls tell the same, the first with places from `here` on and the
second with places from `there` on. -/
inductive SameAnswers (here there : Nat) :
    (outcome other : Except Fault (List (Answer σ) × Reader σ)) → Prop where
  | answered {answers others : List (Answer σ)} {after after' : Reader σ}
      (h : answers.map (Answer.told here) = others.map (Answer.told there)) :
      SameAnswers here there (.ok (answers, after)) (.ok (others, after'))
  | failed (fault : Fault) {start size start' size' : Nat}
      (h : start + there = start' + here) :
      SameAnswers here there (.error (fault.relocate start size))
        (.error (fault.relocate start' size'))

theorem SameAnswers.cons {here there : Nat} {answer other : Answer σ}
    {outcome outcome' : Except Fault (List (Answer σ) × Reader σ)}
    (hhead : answer.told here = other.told there) (h : SameAnswers here there outcome outcome') :
    SameAnswers here there
      (do
        let (answers, last) ← outcome
        .ok (answer :: answers, last))
      (do
        let (answers, last) ← outcome'
        .ok (other :: answers, last)) := by
  cases h with
  | answered h => exact .answered (by rw [List.map_cons, List.map_cons, hhead, h])
  | failed fault h => exact .failed fault h

/-- Readers that are alike give the same answers, however often they are asked. -/
theorem sameAnswers_of_alike (hlocal : resumption.Local) (h : Alike reader other)
    (hgrammar : reader.grammar = grammar)
    (hfits : hlocal.Fits (reader.stop - reader.start) reader.state) {here there : Nat}
    (hplace : reader.start + there = other.start + here) (calls : Nat) :
    SameAnswers here there (reader.answers calls) (other.answers calls) := by
  induction calls generalizing reader other with
  | zero => exact .answered rfl
  | succ calls ih =>
      rcases next_alike hlocal h hgrammar hfits with
        ⟨fault, hnext, hother⟩ |
        ⟨token, after, after', hnext, hother, halike, hgrammar', hfits', hstart⟩
      · simp only [Reader.answers, hnext, hother, bind, Except.bind]
        exact .failed fault hplace
      · have hrest := ih halike hgrammar' hfits' (by omega)
        rw [Reader.answers, Reader.answers, hnext, hother]
        refine SameAnswers.cons ?_ hrest
        have hstore : after.store = after'.store := halike.state_eq
        have hoffset : (after.offset : Int) - here = after'.offset - there := by
          show (after.start : Int) - here = after'.start - there
          omega
        rw [Answer.told, Answer.told, hstore, hoffset]

/-- Where a token of the shown bytes is pending, no call fails. -/
theorem exists_answers (hlocal : resumption.Local) (hgrammar : reader.grammar = grammar)
    (hstop : reader.stop ≤ reader.buffer.length) {base : σ}
    (h : resumption.Pending reader.shown base reader.state) (calls : Nat) :
    ∃ answers after, reader.answers calls = .ok (answers, after) := by
  induction calls generalizing reader base with
  | zero => exact ⟨[], reader, rfl⟩
  | succ calls ih =>
      have hprescan := resumption.prescan_le h
      have hlength := length_shown hstop
      have hahead := length_ahead reader
      have hstep : reader.grammar.step reader.view reader.state =
          grammar.step ⟨reader.shown, reader.shown.length, reader.last⟩ reader.state := by
        rw [hgrammar, view, hlength]
        refine hlocal.step_eq_of_take (hlocal.fits_of_pending h (by omega)) (by omega)
          (Nat.le_of_eq hlength.symm) ?_
        rw [shown, List.take_take, Nat.min_self]
      rcases resumption.step reader.shown.length reader.last h hprescan (Nat.le_refl _)
        (fun _ => rfl) with
        ⟨held, hheld, hpending, -, -⟩ | ⟨token, next, htoken, -, -, -, hready⟩
      · rw [hheld] at hstep
        have hrest : resumption.Pending (shown { reader with state := held }) base held := hpending
        obtain ⟨answers, after, hanswers⟩ :=
          @ih { reader with state := held } hgrammar hstop base hrest
        exact ⟨_, after, answers_of_next (next_of_hold hstep) hanswers⟩
      · rw [htoken] at hstep
        have hrest := resumption.pending_of_ready hready
        rw [← shown_behind reader token next] at hrest
        obtain ⟨answers, after, hanswers⟩ :=
          @ih (reader.behind token next) hgrammar hstop next hrest
        exact ⟨_, after, answers_of_next (next_of_token hstep) hanswers⟩

end Reader

/-! ## Loading -/

/-- The bytes from `start` to `stop`, or to the end. -/
def Bytes.slice (bytes : Bytes) (start stop : Nat) : Bytes := (bytes.take stop).drop start

namespace Reader

variable {grammar : Grammar σ}

/-- A state is loaded behind the bytes of its token, and the window shows the bytes from there
on to its end. -/
theorem exists_load (grammar : Grammar σ) (buffer : Bytes) {place : Nat} (len : Nat)
    (last : Bool) {state : σ} (h : grammar.prescan state ≤ place) :
    ∃ loaded, (Reader.new grammar).load (some state) buffer place len last = .ok loaded ∧
      loaded.grammar = grammar ∧ loaded.state = state ∧ loaded.last = last ∧
      loaded.start = place - grammar.prescan state ∧ loaded.stop ≤ loaded.buffer.length ∧
      loaded.shown = buffer.slice (place - grammar.prescan state) (place + len) := by
  refine ⟨_, load_eq_window h, rfl, rfl, rfl, rfl, Nat.min_le_right _ _, ?_⟩
  show (buffer.drop (place - grammar.prescan state)).take
    (min (place + len) buffer.length - (place - grammar.prescan state)) = _
  rw [Bytes.slice, List.drop_take, List.take_eq_take_iff, List.length_drop]
  omega

end Reader

namespace Grammar.Resumption.Local

variable {grammar : Grammar σ} {resumption : grammar.Resumption} (hlocal : resumption.Local)

include hlocal in
/-- A stored state that is loaded over two buffers gives the same answers in both if they show
the same bytes, beginning with those that were read of the pending token. It fails in neither
if the token goes on with a byte of the text over which the state was stored. -/
theorem loads_agree {source : Bytes} {start : Nat} {state : σ}
    (hstored : grammar.Stores source start state) {buffer other : Bytes} {here there len : Nat}
    (last : Bool) (hhere : grammar.prescan state ≤ here) (hthere : grammar.prescan state ≤ there)
    (hsame : buffer.slice (here - grammar.prescan state) (here + len) =
      other.slice (there - grammar.prescan state) (there + len))
    (hread : (source.drop start).take (grammar.prescan state) <+:
      buffer.slice (here - grammar.prescan state) (here + len)) :
    ∃ loaded loaded',
      (Reader.new grammar).load (some state) buffer here len last = .ok loaded ∧
      (Reader.new grammar).load (some state) other there len last = .ok loaded' ∧
      (∀ calls, Reader.SameAnswers here there (loaded.answers calls) (loaded'.answers calls)) ∧
      ((∀ byte, (buffer.slice (here - grammar.prescan state) (here + len)).head? = some byte →
          (source.drop start).head? = some byte) →
        ∀ calls, ∃ answers after, loaded.answers calls = .ok (answers, after)) := by
  obtain ⟨base, hsettled⟩ := hlocal.settled_of_stores hstored
  have hprescan := resumption.prescan_le hsettled.pending
  -- What was read of the token stands at the beginning of the window.
  have hbegins := (List.prefix_iff_eq_take.mp hread).symm
  have hlength := hread.length_le
  rw [List.length_take, Nat.min_eq_left hprescan] at hbegins hlength
  obtain ⟨loaded, hload, hgrammar, hstate, hlast, hstart, hstop, hshown⟩ :=
    Reader.exists_load grammar buffer len last hhere
  obtain ⟨loaded', hload', hgrammar', hstate', hlast', hstart', hstop', hshown'⟩ :=
    Reader.exists_load grammar other len last hthere
  rw [← hshown] at hlength hbegins
  refine ⟨loaded, loaded', hload, hload', fun calls => ?_, fun hhead calls => ?_⟩
  · have halike : Reader.Alike loaded loaded' :=
      ⟨hgrammar.trans hgrammar'.symm, hstate.trans hstate'.symm, hlast.trans hlast'.symm,
        hshown.trans (hsame.trans hshown'.symm), hstop, hstop'⟩
    refine Reader.sameAnswers_of_alike hlocal halike hgrammar ?_ (by omega) calls
    rw [hstate, ← Reader.length_shown hstop]
    exact hlocal.fits_of_pending hsettled.pending hlength
  · rw [← hshown] at hhead
    have hready := hlocal.ready_of_head (resumption.ready_of_pending hsettled.pending) hhead
    have hpending := hsettled.others _ hlength hbegins hready
    rw [← hstate] at hpending
    exact Reader.exists_answers hlocal hgrammar hstop hpending calls

end Grammar.Resumption.Local

/-! ## Pages -/

namespace Dialect

open Page

/-- A step of a page depends on the bytes of its window only. -/
def locality (dialect : Dialect) : dialect.resumption.Local where
  Fits := State.Fits
  fits_of_pending h hprescan := by
    obtain ⟨inner, start, frame, hpending, -⟩ := Resumes.pending h
    exact fits_of_consistent (consistent_of_pending hpending) hprescan
  fits_of_hold h hstep := settles_of_step h hstep
  fits_of_token h hstep := fits_of_rests (settles_of_step h hstep)
  step_append_right behind _ h hroom := step_append_right behind h hroom
  ready_of_head h hhead := State.Ready.of_head h hhead

/-- A state that a session over a page has stored gives the same answers in all buffers that
show the same bytes around the place where it is loaded: the same tokens with the same states
and nestings behind them, each at its place. What stands before the pending token or behind
the window does not matter, nor does the place. -/
theorem window_locality (dialect : Dialect) {source : Bytes} {start : Nat} {state : State}
    (hstored : dialect.grammar.Stores source start state) {buffer other : Bytes}
    {here there len : Nat} (last : Bool) (hhere : state.prescan ≤ here)
    (hthere : state.prescan ≤ there)
    (hsame : buffer.slice (here - state.prescan) (here + len) =
      other.slice (there - state.prescan) (there + len))
    (hread : (source.drop start).take state.prescan <+:
      buffer.slice (here - state.prescan) (here + len)) :
    ∃ loaded loaded',
      (Reader.new dialect.grammar).load (some state) buffer here len last = .ok loaded ∧
      (Reader.new dialect.grammar).load (some state) other there len last = .ok loaded' ∧
      (∀ calls, Reader.SameAnswers here there (loaded.answers calls) (loaded'.answers calls)) ∧
      ((∀ byte, (buffer.slice (here - state.prescan) (here + len)).head? = some byte →
          (source.drop start).head? = some byte) →
        ∀ calls, ∃ answers after, loaded.answers calls = .ok (answers, after)) :=
  dialect.locality.loads_agree hstored last hhere hthere hsame hread

/-- So it is with the default prefixes, for a page that is cut inside the opening of a
fragment: its state goes on alike in two buffers that hold the fragment at different places. -/
theorem default_window_locality :
    ∃ state : State, default.grammar.Stores (Bytes.ofString "<tpl:a>") 0 state ∧
      state.prescan = 3 ∧
      ∃ loaded loaded',
        (Reader.new default.grammar).load (some state) (Bytes.ofString "x<tpl:a>y") 4 4 true =
          .ok loaded ∧
        (Reader.new default.grammar).load (some state) (Bytes.ofString "<tpl:a>") 3 4 true =
          .ok loaded' ∧
        (∀ calls, Reader.SameAnswers 4 3 (loaded.answers calls) (loaded'.answers calls)) ∧
        ∀ calls, ∃ answers after, loaded.answers calls = .ok (answers, after) := by
  obtain ⟨held, hattempt, hprescan⟩ : ∃ held,
      default.attempt ⟨Bytes.ofString "<tpl:a>", 3, false⟩ State.initial =
        .ok (.step (.hold held)) ∧ held.prescan = 3 := ⟨_, rfl, rfl⟩
  have hstored : default.grammar.Stores (Bytes.ofString "<tpl:a>") 0 held :=
    .of_hold default.resumption (by decide) (step_of_attempt hattempt)
  obtain ⟨loaded, loaded', hload, hload', hsame, htotal⟩ :=
    @window_locality default _ 0 held hstored (Bytes.ofString "x<tpl:a>y")
      (Bytes.ofString "<tpl:a>") 4 3 4 true (by omega) (by omega)
      (by rw [hprescan]; decide) (by rw [hprescan]; decide)
  refine ⟨held, hstored, hprescan, loaded, loaded', hload, hload', hsame, htotal ?_⟩
  rw [hprescan]
  -- Both begin with the same byte.
  exact fun byte hbyte => hbyte

end Dialect

end PageLexing
