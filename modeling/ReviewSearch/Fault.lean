/-
ReviewSearch.Fault — why a query is not answered.

A fault is one of six causes, each with its reason in words; a refused
query may also name the piece of its text that is at fault. The code of a
fault is what programs match on, and `Gravity` says how bad it is.
-/
namespace ReviewSearch

/-- The class of a fault, as programs see it. -/
inductive Code where
  /-- A malformed query, or one that the engine refuses. -/
  | queryParse
  /-- A malformed argument of an operation on trees or stored entries. -/
  | invalidArgument
  /-- A plan whose parts cannot serve it. -/
  | sourceContract
  /-- The index failed. -/
  | indexFailed
  /-- Invalid limits or schema. -/
  | configInvalid
  deriving DecidableEq, Repr

def Code.text : Code → String
  | .queryParse => "AERO_QUERY_PARSE"
  | .invalidArgument => "AERO_INVALID_ARGUMENT"
  | .sourceContract => "AERO_SOURCE_CONTRACT"
  | .indexFailed => "AERO_INDEX_FAILED"
  | .configInvalid => "AERO_CONFIG_INVALID"

/-- What a fault means for the request. -/
inductive Gravity where
  /-- Refused, and nothing was done. -/
  | reject
  /-- Failed, and may be tried again. -/
  | error
  /-- The engine itself is at fault. -/
  | fatal
  deriving DecidableEq, Repr

def Gravity.text : Gravity → String
  | .reject => "REJECT"
  | .error => "ERROR"
  | .fatal => "FATAL"

def Code.gravity : Code → Gravity
  | .queryParse | .invalidArgument => .reject
  | .indexFailed | .configInvalid => .error
  | .sourceContract => .fatal

inductive Fault where
  /-- A refused query. -/
  | refused (reason : String)
  /-- A query refused for a piece of its text. -/
  | refusedAt (reason fragment : String)
  | argument (reason : String)
  | contract (reason : String)
  | index (reason : String)
  | config (reason : String)
  deriving DecidableEq, Repr

namespace Fault

def code : Fault → Code
  | .refused _ | .refusedAt .. => .queryParse
  | .argument _ => .invalidArgument
  | .contract _ => .sourceContract
  | .index _ => .indexFailed
  | .config _ => .configInvalid

/-- The reason; a piece at fault follows behind a colon. -/
def message : Fault → String
  | .refused reason | .argument reason | .contract reason | .index reason | .config reason =>
    reason
  | .refusedAt reason fragment => reason ++ ": " ++ fragment

/-- The piece at fault. -/
def fragment? : Fault → Option String
  | .refusedAt _ fragment => some fragment
  | _ => none

def gravity (f : Fault) : Gravity :=
  f.code.gravity

def isFatal (f : Fault) : Bool :=
  f.gravity == .fatal

/-- A fault on one line: gravity, code and message. -/
def display (f : Fault) : String :=
  "[" ++ f.gravity.text ++ "] " ++ f.code.text ++ ": " ++ f.message

/-! ## Causes that several modules name -/

/-- No operator of that name. -/
def unsupportedOperator (name value : String) : Fault :=
  .refusedAt "Unsupported operator" (name ++ ":" ++ value)

/-- More leaves than the index accepts in one query. -/
def tooManyTerms (limit : Nat) : Fault :=
  .refused ("too many terms in query (max " ++ toString limit ++ ")")

end Fault

/-! ## Steps with and without a fault -/

theorem bind_eq_ok_iff {ε α β : Type} {x : Except ε α} {f : α → Except ε β} {b : β} :
    x >>= f = .ok b ↔ ∃ a, x = .ok a ∧ f a = .ok b := by
  cases x with
  | error e => exact ⟨fun h => (nomatch h), fun ⟨_, h, _⟩ => (nomatch h)⟩
  | ok a =>
    constructor
    · exact fun h => ⟨a, rfl, h⟩
    · rintro ⟨a', h, hf⟩
      exact Except.ok.inj h ▸ hf

theorem bind_eq_error_iff {ε α β : Type} {x : Except ε α} {f : α → Except ε β} {e : ε} :
    x >>= f = .error e ↔ x = .error e ∨ ∃ a, x = .ok a ∧ f a = .error e := by
  cases x with
  | error e' =>
    constructor
    · exact fun h => .inl (congrArg _ (Except.error.inj h))
    · rintro (h | ⟨_, h, _⟩)
      · exact congrArg _ (Except.error.inj h)
      · cases h
  | ok a =>
    constructor
    · exact fun h => .inr ⟨a, rfl, h⟩
    · rintro (h | ⟨a', h, hf⟩)
      · cases h
      · exact Except.ok.inj h ▸ hf

theorem map_eq_ok_iff {ε α β : Type} {x : Except ε α} {f : α → β} {b : β} :
    x.map f = .ok b ↔ ∃ a, x = .ok a ∧ f a = b := by
  cases x <;> simp [Except.map]

end ReviewSearch
