/-!
# The three languages of a page and how they nest

A page is markup, the *host* language. Inside it stand *tags* (directives, tag comments
and prefixed elements) and regions of *script*; a script region may also stand inside a
tag. Four nestings are possible, and each is fully described by the stack of its live
languages, outermost first.

## Main results

* `Nesting.isLive_iff_mem_stack` — a language is live exactly if it is on the stack.
* `Nesting.active_eq_getLast` — the active language is the last on it.
* `Nesting.stack_injective` — the stack determines the nesting.
-/

namespace PageLexing

/-- A language of a page. -/
inductive Language where
  | host
  | tag
  | script
deriving DecidableEq

namespace Language

/-- The name used in messages. -/
def name : Language → String
  | host => "host"
  | tag => "tag"
  | script => "script"

/-- The languages in the order of their token numbers. -/
def all : List Language := [host, tag, script]

end Language

/-- Which languages are open around the next token, outermost first. -/
inductive Nesting where
  | host
  | hostTag
  | hostTagScript
  | hostScript
deriving DecidableEq

namespace Nesting

/-- The constructor's name in states and messages. -/
def name : Nesting → String
  | host => "Host"
  | hostTag => "HostTag"
  | hostTagScript => "HostTagScript"
  | hostScript => "HostScript"

/-- The nestings, in order of declaration. -/
def all : List Nesting := [host, hostTag, hostTagScript, hostScript]

/-- The live languages, outermost first. -/
def stack : Nesting → List Language
  | host => [.host]
  | hostTag => [.host, .tag]
  | hostTagScript => [.host, .tag, .script]
  | hostScript => [.host, .script]

/-- The innermost language: the one that reads the next token. -/
def active : Nesting → Language
  | host => .host
  | hostTag => .tag
  | hostTagScript | hostScript => .script

/-- Whether `language` is open, active or not. -/
def isLive : Nesting → Language → Bool
  | _, .host => true
  | hostTag, .tag | hostTagScript, .tag => true
  | hostTagScript, .script | hostScript, .script => true
  | _, _ => false

theorem isLive_iff_mem_stack (nesting : Nesting) (language : Language) :
    nesting.isLive language = true ↔ language ∈ nesting.stack := by
  cases nesting <;> cases language <;> decide

theorem active_eq_getLast (nesting : Nesting) :
    nesting.stack.getLast? = some nesting.active := by
  cases nesting <;> rfl

theorem active_mem_stack (nesting : Nesting) : nesting.active ∈ nesting.stack :=
  List.mem_of_getLast? (active_eq_getLast nesting)

/-- No language is open twice. -/
theorem nodup_stack (nesting : Nesting) : nesting.stack.Nodup := by
  cases nesting <;> decide

theorem stack_injective {a b : Nesting} (h : a.stack = b.stack) : a = b := by
  cases a <;> cases b <;> first | rfl | simp [stack] at h

end Nesting

end PageLexing
