/-
  The world that the standard capabilities act on: what was printed, the time, and whether a redraw
  was asked for.
-/
import LiveLisp.Host.Builtin

namespace LiveLisp

structure World where
  /-- Everything printed, line by line. -/
  console : String := ""
  /-- Milliseconds, moved only by the host. -/
  clock : Float := 0.0
  /-- Whether a redraw has been asked for. -/
  render : Bool := false

/-- A flag that programs raise and hosts read and clear. -/
structure Signal (σ : Type) where
  isRequested : σ → Bool
  set : Bool → σ → σ

namespace World

def advance (milliseconds : Float) (world : World) : World :=
  { world with clock := world.clock + milliseconds }

def renderSignal : Signal World where
  isRequested := (·.render)
  set := fun flag world => { world with render := flag }

end World

namespace Capability

def printed (method : String) (args : List Value) : Except HostProblem String :=
  let line := String.intercalate " " (args.map Value.render)
  match method with
  | "print" => .ok line
  | "log" => .ok ("[log] " ++ line)
  | _ => .error (.noMethod "console" method)

/-- The text in a saved console state. -/
def savedOutput (state : Json) : Except HostProblem String :=
  match (state.get? "output").bind Json.text? with
  | some output => .ok output
  | none => .error .missingOutput

/-- `print` and `log`. The whole output is saved, so that a state can be taken back in both
directions. -/
def console : Capability World where
  label := "console"
  hasMethod := fun name => name == "print" || name == "log"
  invoke := fun method args world =>
    match printed method args with
    | .ok line => (.ok .null, { world with console := world.console ++ line ++ "\n" })
    | .error problem => (.error problem, world)
  save := fun world => some (.object [("output", .text world.console)])
  check := fun state _ => (savedOutput state).map fun _ => ()
  restore := fun state world =>
    match savedOutput state with
    | .ok output => (.ok (), { world with console := output })
    | .error problem => (.error problem, world)

/-- `now`: the time in milliseconds, which is not the program's to repeat. -/
def clock : Capability World where
  label := "clock"
  hasMethod := (· == "now")
  invoke := fun method args world =>
    if method != "now" then (.error (.noMethod "clock" method), world)
    else if !args.isEmpty then (.error (.takesNoArguments "now"), world)
    else (.ok (.number world.clock), world)
  isDeterministic := false

/-- `render`: asks for a redraw through a signal. -/
def frame {σ : Type} (signal : Signal σ) : Capability σ where
  label := "frame"
  hasMethod := (· == "render")
  invoke := fun method _ world =>
    if method != "render" then (.error (.noMethod "frame" method), world)
    else (.ok .null, signal.set true world)

/-! Capabilities for trying out how sessions meet difficult hosts. -/

/-- Saves a state and never accepts one. -/
def picky {σ : Type} : Capability σ where
  label := "picky"
  hasMethod := fun _ => false
  invoke := fun method _ world => (.error (.noMethod "picky" method), world)
  save := fun _ => some .null
  check := fun _ _ => .error (.custom "never satisfied")

/-- Accepts every state and then fails to take it. -/
def stubborn {σ : Type} : Capability σ where
  label := "stubborn"
  hasMethod := fun _ => false
  invoke := fun method _ world => (.error (.noMethod "stubborn" method), world)
  save := fun _ => some (.bool true)
  restore := fun _ world => (.error (.custom "will not move: stuck"), world)

/-- Answers every call with the call itself, and takes over two names of others. -/
def shadow {σ : Type} : Capability σ where
  label := "shadow"
  hasMethod := fun name => name == "+" || name == "now"
  invoke := fun method args world => (.ok (.list (.text method :: args)), world)

/-- The capability with a label, as a host supplies it. -/
def ofLabel? (label : String) : Option (Capability World) :=
  match label with
  | "builtins" => some builtins
  | "frame" => some (frame World.renderSignal)
  | "console" => some console
  | "clock" => some clock
  | "picky" => some picky
  | "stubborn" => some stubborn
  | "shadow" => some shadow
  | _ => none

end Capability

end LiveLisp
