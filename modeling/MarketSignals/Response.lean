import MarketSignals.Error

/-!
# What a host is told

A host gets either a value or a `HostError`: a stable code with a message.  As
JSON both come in one envelope, `Response`, whose member `ok` says which of the
two it holds.
-/

namespace MarketSignals

/-- An error as a host sees it. -/
structure HostError where
  code : ErrorCode
  message : String
  deriving Repr, DecidableEq

namespace HostError

/-- An error of the engine as a host sees it. -/
def ofEngine (e : EngineError) : HostError := ⟨e.code, e.message⟩

/-- An input that the engine does not take. -/
def invalidInput (message : String) : HostError := ⟨.invalidInput, message⟩

/-- The error that stands for a panic in the named operation. -/
def ofPanic (operation : String) (panic : Panic) : HostError :=
  ⟨.internalInvariantViolation, s!"panic in {operation}: {panic.message}"⟩

/-- How the named operation reports a failed call. -/
def ofFault (operation : String) : Fault → HostError
  | .refused error => ofEngine error
  | .panicked panic => ofPanic operation panic

/-- Code and message in one line. -/
def text (e : HostError) : String := s!"{e.code.label}: {e.message}"

instance : Codec HostError where
  encode e := Json.object [("code", Codec.encode e.code), ("message", Codec.encode e.message)]
  decode? place j := do
    let r ← Json.record? ["code", "message"] place j
    some { code := ← r.required? ErrorCode "code", message := ← r.required? String "message" }

end HostError

/-- The envelope of a result. -/
structure Response (β : Type) where
  ok : Bool
  data : Option β := none
  error : Option HostError := none

namespace Response

variable {β : Type}

/-- The envelope of a result. -/
def ofResult : Except HostError β → Response β
  | .ok data => { ok := true, data := some data }
  | .error error => { ok := false, error := some error }

/-- Data and error are written only where they are present. -/
instance [Codec β] : Codec (Response β) where
  encode r := Json.object <|
    [("ok", Codec.encode r.ok)] ++ (r.data.toList.map fun d => ("data", Codec.encode d)) ++
      r.error.toList.map fun e => ("error", Codec.encode e)
  decode? place j := do
    let r ← Json.record? ["ok", "data", "error"] place j
    some {
      ok := ← r.required? Bool "ok"
      data := ← r.optional? β "data"
      error := ← r.optional? HostError "error" }

/-- The text of an envelope. -/
def toJson [Codec β] (r : Response β) : String := Codec.write r

end Response

end MarketSignals
