/-
  Capabilities: what a program can ask of its host. All capabilities of a program act on one world
  `σ`, of which each may read and change its own part.

  A capability with state can save it and take it back. One whose answers do not depend on its
  arguments and saved state alone says so, and a session then remembers its answers step by step.
-/
import LiveLisp.Code.Value
import LiveLisp.Host.Problem
import LiveLisp.Json.Basic

namespace LiveLisp

structure Capability (σ : Type) where
  label : String
  hasMethod : String → Bool
  invoke : String → List Value → σ → Except HostProblem Value × σ
  isDeterministic : Bool := true
  save : σ → Option Json := fun _ => none
  /-- Whether `restore` would take this state. -/
  check : Json → σ → Except HostProblem Unit := fun _ _ => .ok ()
  restore : Json → σ → Except HostProblem Unit × σ := fun _ world => (.ok (), world)

/-- The host as a running program sees it: who answers to a name, and what calls answer. -/
structure Host (σ : Type) where
  owner? : String → Option Owner
  invoke : Owner → String → List Value → σ → Except HostProblem Value × σ

namespace Capability

variable {σ : Type}

/-- The capabilities that have this method, with their places, the first one first. -/
def ownersFrom (slot : Nat) (name : String) : List (Capability σ) → List Owner
  | [] => []
  | c :: cs =>
    if c.hasMethod name then ⟨slot, c.label⟩ :: ownersFrom (slot + 1) name cs
    else ownersFrom (slot + 1) name cs

/-- Of several capabilities with a method the last one answers. -/
def ownerOf? (capabilities : List (Capability σ)) (name : String) : Option Owner :=
  (ownersFrom 0 name capabilities).getLast?

def invokeAt (capabilities : List (Capability σ)) (owner : Owner) (method : String)
    (args : List Value) (world : σ) : Except HostProblem Value × σ :=
  match capabilities[owner.slot]? with
  | some c => c.invoke method args world
  | none => (.error (.missingOwner owner.label), world)

end Capability

/-- Every call goes to its capability. -/
def Host.direct {σ : Type} (capabilities : List (Capability σ)) : Host σ where
  owner? := Capability.ownerOf? capabilities
  invoke := Capability.invokeAt capabilities

end LiveLisp
