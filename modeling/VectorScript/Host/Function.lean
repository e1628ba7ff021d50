import VectorScript.Value

/-!
# Host functions

A host function answers a call with a value or a fault, and may ask its host for services on the
way: to run another script, or for a random number. A `Call` is the conversation; `Call.answer`
holds it with a host whose state the services may change.
-/

namespace VectorScript

/-- What a function does with its arguments. -/
inductive Call where
  | done (result : Except Fault Value)
  /-- Runs a script and goes on with its outcome. -/
  | dispatch (script : String) (next : Except Fault Unit → Call)
  /-- Draws a number from zero up to but not including one. -/
  | random (next : Float32 → Call)

/-- The services of a host with a state. -/
structure Services (σ : Type) where
  dispatch : String → σ → Except Fault Unit × σ
  random : σ → Float32 × σ

/-- Holds the conversation of a call. -/
def Call.answer {σ : Type} (services : Services σ) : Call → σ → Except Fault Value × σ
  | done result, host => (result, host)
  | dispatch script next, host =>
    let (outcome, host) := services.dispatch script host
    answer services (next outcome) host
  | random next, host =>
    let (x, host) := services.random host
    answer services (next x) host

/-- A function of the host. The body gets exactly as many values as there are parameters. -/
structure HostFunction where
  name : String
  params : List Ty
  ret : Ty
  body : List Value → Call

namespace HostFunction

/-- Calls the function on the values from an offset on. -/
def execute (f : HostFunction) (values : List Value) (offset : Nat) : Call :=
  if offset + f.params.length ≤ values.length then
    f.body ((values.drop offset).take f.params.length)
  else .done (.error ((Fault.internal "missing arguments").named f.name))

/-- A function that needs no services. -/
def ofResult (name : String) (params : List Ty) (ret : Ty)
    (result : List Value → Except Fault Value) : HostFunction :=
  { name, params, ret, body := fun args => .done (result args) }

end HostFunction

end VectorScript
