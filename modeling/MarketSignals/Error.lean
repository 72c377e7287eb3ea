import MarketSignals.Json.Codec

/-!
# Errors of the engine

`EngineError` is what any part of the engine reports, `ErrorCode` the stable
discriminant that a host sees.  An estimator supplied by a host may also break
off with a panic; `Fault` joins the two.
-/

namespace MarketSignals

/-- The kind of an error, as hosts see it. -/
inductive ErrorCode where
  | invalidInput
  | notFound
  | duplicateRegistration
  | insufficientData
  | internalInvariantViolation
  | cancelled
  | shutDown
  deriving Repr, DecidableEq

namespace ErrorCode

/-- The number of a code.  Numbers are part of the contract with hosts. -/
def number : ErrorCode → Nat
  | invalidInput => 1
  | notFound => 2
  | duplicateRegistration => 3
  | insufficientData => 4
  | internalInvariantViolation => 5
  | cancelled => 6
  | shutDown => 7

/-- The name of a code in JSON texts. -/
def name : ErrorCode → String
  | invalidInput => "invalid_input"
  | notFound => "not_found"
  | duplicateRegistration => "duplicate_registration"
  | insufficientData => "insufficient_data"
  | internalInvariantViolation => "internal_invariant_violation"
  | cancelled => "cancelled"
  | shutDown => "shut_down"

/-- The name of a code in front of a message. -/
def label : ErrorCode → String
  | invalidInput => "InvalidInput"
  | notFound => "NotFound"
  | duplicateRegistration => "DuplicateRegistration"
  | insufficientData => "InsufficientData"
  | internalInvariantViolation => "InternalInvariantViolation"
  | cancelled => "Cancelled"
  | shutDown => "ShutDown"

/-- All codes by number. -/
def all : List ErrorCode :=
  [invalidInput, notFound, duplicateRegistration, insufficientData,
    internalInvariantViolation, cancelled, shutDown]

instance : Codec ErrorCode where
  encode c := Json.ofString c.name
  decode? := Json.choice? (all.map fun c => (c.name, c))

end ErrorCode

/-- An error reported by a part of the engine. -/
inductive EngineError where
  | invalidInput (reason : String)
  | notFound (what : String)
  | duplicateRegistration (alphaId instrumentId : String)
  | insufficientData (collected required : Nat)
  | invariant (what : String)
  | cancelled
  | shutDown
  deriving Repr, DecidableEq

namespace EngineError

/-- The kind of an error. -/
def code : EngineError → ErrorCode
  | invalidInput _ => .invalidInput
  | notFound _ => .notFound
  | duplicateRegistration .. => .duplicateRegistration
  | insufficientData .. => .insufficientData
  | invariant _ => .internalInvariantViolation
  | cancelled => .cancelled
  | shutDown => .shutDown

/-- The message of an error. -/
def message : EngineError → String
  | invalidInput reason => s!"Invalid input: {reason}"
  | notFound what => s!"Not found: {what}"
  | duplicateRegistration alphaId instrumentId =>
      s!"Duplicate registration: alpha={alphaId}, instrument={instrumentId}"
  | insufficientData collected required => s!"Insufficient data: {collected}/{required} samples"
  | invariant what => s!"Internal invariant violated: {what}"
  | cancelled => "Operation cancelled"
  | shutDown => "Engine is shut down"

end EngineError

/-- Why a computation broke off instead of returning. -/
inductive Panic where
  | text (message : String)
  /-- A payload that carries no text. -/
  | silent
  deriving Repr, DecidableEq

/-- The text of a panic. -/
def Panic.message : Panic → String
  | text message => message
  | silent => "non-string panic payload"

/-- How a call on an estimator can fail. -/
inductive Fault where
  /-- The call returned an error. -/
  | refused (error : EngineError)
  /-- The call broke off. -/
  | panicked (panic : Panic)
  deriving Repr, DecidableEq

end MarketSignals
