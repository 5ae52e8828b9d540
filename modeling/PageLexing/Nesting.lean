import PageLexing.Fault

/-!
# Opening and closing languages

A language opens on top of the active one and closes back to what was below it. Only
three openings exist: a tag or a script in the host, and a script in a tag.

## Main results

* `Nesting.stack_enter`, `Nesting.stack_leave` — opening pushes on the stack of live
  languages and closing pops it.
* `Nesting.isLive_enter`, `Nesting.isLive_leave` — so opening makes one language live, and
  closing ends one.
* `Nesting.leave_enter` — closing what was just opened restores the nesting.
-/

namespace PageLexing.Nesting

/-- The nesting after `language` opens inside the active one. -/
def enter : Nesting → Language → Except Fault Nesting
  | host, .tag => .ok hostTag
  | host, .script => .ok hostScript
  | hostTag, .script => .ok hostTagScript
  | nesting, language => .error (.noNesting language nesting)

/-- The nesting after the active language closes. -/
def leave : Nesting → Except Fault Nesting
  | hostTag | hostScript => .ok host
  | hostTagScript => .ok hostTag
  | host => .error .hostLeft

/-- How many more languages could open at most. -/
def headroom : Nesting → Nat
  | host => 2
  | hostTag | hostScript => 1
  | hostTagScript => 0

/-! ## The stack of live languages -/

theorem stack_enter {outer inner : Nesting} {language : Language}
    (h : outer.enter language = .ok inner) : inner.stack = outer.stack ++ [language] := by
  cases outer <;> cases language <;> cases h <;> rfl

theorem stack_leave {outer inner : Nesting} (h : inner.leave = .ok outer) :
    inner.stack = outer.stack ++ [inner.active] := by
  cases inner <;> cases h <;> rfl

theorem active_enter {outer inner : Nesting} {language : Language}
    (h : outer.enter language = .ok inner) : inner.active = language := by
  have hlast := active_eq_getLast inner
  rw [stack_enter h, List.getLast?_concat] at hlast
  exact (Option.some.inj hlast).symm

/-- The language that closes is not left open below. -/
theorem active_notMem_of_leave {outer inner : Nesting} (h : inner.leave = .ok outer) :
    inner.active ∉ outer.stack := by
  intro hmem
  have hnodup := nodup_stack inner
  rw [stack_leave h, List.nodup_append] at hnodup
  exact hnodup.2.2 _ hmem _ (List.mem_singleton_self _) rfl

theorem active_leave_ne {outer inner : Nesting} (h : inner.leave = .ok outer) :
    outer.active ≠ inner.active := by
  intro heq
  have hnotMem := active_notMem_of_leave h
  rw [← heq] at hnotMem
  exact hnotMem (active_mem_stack outer)

/-! ## What is live -/

@[simp] theorem isLive_active (nesting : Nesting) : nesting.isLive nesting.active = true :=
  (isLive_iff_mem_stack _ _).mpr (active_mem_stack nesting)

/-- Opening a language makes it live. -/
theorem isLive_enter {outer inner : Nesting} {language : Language}
    (h : outer.enter language = .ok inner) (other : Language) :
    inner.isLive other = (outer.isLive other || decide (other = language)) := by
  rw [Bool.eq_iff_iff, Bool.or_eq_true, decide_eq_true_iff, isLive_iff_mem_stack,
    isLive_iff_mem_stack, stack_enter h, List.mem_append, List.mem_singleton]

/-- Closing ends the active language and no other. -/
theorem isLive_leave {outer inner : Nesting} (h : inner.leave = .ok outer) (other : Language) :
    outer.isLive other = (inner.isLive other && decide (other ≠ inner.active)) := by
  rw [Bool.eq_iff_iff, Bool.and_eq_true, decide_eq_true_iff, isLive_iff_mem_stack,
    isLive_iff_mem_stack, stack_leave h, List.mem_append, List.mem_singleton]
  constructor
  · intro hmem
    refine ⟨Or.inl hmem, ?_⟩
    rintro rfl
    exact active_notMem_of_leave h hmem
  · rintro ⟨hmem | heq, hne⟩
    · exact hmem
    · exact absurd heq hne

/-! ## What may open and close -/

theorem eq_host_of_active {nesting : Nesting} (h : nesting.active = .host) :
    nesting = .host := by
  cases nesting <;> first | rfl | cases h

theorem eq_hostTag_of_active {nesting : Nesting} (h : nesting.active = .tag) :
    nesting = .hostTag := by
  cases nesting <;> first | rfl | cases h

/-- A tag opens in the host only. -/
theorem eq_host_of_enter_tag {outer inner : Nesting} (h : outer.enter .tag = .ok inner) :
    outer = .host ∧ inner = .hostTag := by
  cases outer <;> cases h
  exact ⟨rfl, rfl⟩

/-- A script opens in any other language. -/
theorem exists_enter_script {nesting : Nesting} (h : nesting.active ≠ .script) :
    ∃ inner, nesting.enter .script = .ok inner := by
  cases nesting <;> first | exact ⟨_, rfl⟩ | exact absurd rfl h

/-- All but the host can be closed. -/
theorem exists_leave {nesting : Nesting} (h : nesting.active ≠ .host) :
    ∃ outer, nesting.leave = .ok outer := by
  cases nesting <;> first | exact ⟨_, rfl⟩ | exact absurd rfl h

/-- The host never opens. -/
theorem ne_host_of_enter {outer inner : Nesting} {language : Language}
    (h : outer.enter language = .ok inner) : language ≠ .host := by
  rintro rfl
  cases outer <;> cases h

/-- Closing what was just opened restores the nesting. -/
theorem leave_enter {outer inner : Nesting} {language : Language}
    (h : outer.enter language = .ok inner) : inner.leave = .ok outer := by
  have hactive : inner.active ≠ .host := by
    rw [active_enter h]
    exact ne_host_of_enter h
  obtain ⟨below, hleave⟩ := exists_leave hactive
  have hstack := (stack_leave hleave).symm.trans (stack_enter h)
  rw [hleave, stack_injective (List.append_inj_left' hstack rfl)]

/-- Languages cannot open forever. -/
theorem headroom_enter {outer inner : Nesting} {language : Language}
    (h : outer.enter language = .ok inner) : inner.headroom < outer.headroom := by
  cases outer <;> cases language <;> cases h <;> decide

end PageLexing.Nesting
