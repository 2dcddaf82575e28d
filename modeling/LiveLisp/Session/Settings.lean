/-
  Settings of a session: how often states are kept and garbage is collected, and what a program can
  call from the start.

  Read from a JSON value, a setting that is left out has its default, an unknown name is ignored,
  and a repeated or ill-typed one is refused; an array gives the settings in order.
-/
import LiveLisp.Json.Basic

namespace LiveLisp

structure Settings where
  /-- A keyframe every so many steps; 0 keeps only the one at the start. -/
  keyframeInterval : Nat := 1000
  /-- How many keyframes are kept at most; the one at the start always is. -/
  keyframeLimit : Nat := 64
  /-- A collection every so many steps; 0 collects only at the end. -/
  gcInterval : Nat := 4096
  /-- Whether every call of a named function is kept as a checkpoint. -/
  recordCheckpoints : Bool := true
  /-- Whether the builtins and the `render` frame are there. -/
  standardBuiltins : Bool := true
deriving DecidableEq, Repr, Inhabited

namespace Settings

/-- Counts are 64-bit words. -/
def count? : Json → Option Nat
  | .integer (.ofNat n) => if n < UInt64.size then some n else none
  | _ => none

def flag? : Json → Option Bool
  | .bool value => some value
  | _ => none

/-- The names of the settings, in order. -/
def names : List String :=
  ["keyframe-interval", "keyframe-limit", "gc-interval", "record-checkpoints", "standard-builtins"]

/-- Sets one setting by name. -/
def set? (s : Settings) (name : String) (value : Json) : Option Settings :=
  match name with
  | "keyframe-interval" => (count? value).map fun n => { s with keyframeInterval := n }
  | "keyframe-limit" => (count? value).map fun n => { s with keyframeLimit := n }
  | "gc-interval" => (count? value).map fun n => { s with gcInterval := n }
  | "record-checkpoints" => (flag? value).map fun b => { s with recordCheckpoints := b }
  | "standard-builtins" => (flag? value).map fun b => { s with standardBuiltins := b }
  | _ => some s

/-- Sets several settings by name, none of them twice. -/
def setAll? (seen : List String) (s : Settings) : List (String × Json) → Option Settings
  | [] => some s
  | (name, value) :: rest => do
    if names.contains name && seen.contains name then none
    else setAll? (name :: seen) (← s.set? name value) rest

def ofJson? : Json → Option Settings
  | .object members => setAll? [] {} members
  | .array items => if names.length < items.length then none else setAll? [] {} (names.zip items)
  | _ => none

def toJson (s : Settings) : Json :=
  .object [("keyframe-interval", .integer s.keyframeInterval),
    ("keyframe-limit", .integer s.keyframeLimit), ("gc-interval", .integer s.gcInterval),
      ("record-checkpoints", .bool s.recordCheckpoints),
    ("standard-builtins", .bool s.standardBuiltins)]

/-- The settings in words. -/
def describe (s : Settings) : String :=
  s!"Settings \x7b keyframe_interval: {s.keyframeInterval}, keyframe_limit: {s.keyframeLimit}, "
    ++ s!"gc_interval: {s.gcInterval}, record_checkpoints: {s.recordCheckpoints}, "
    ++ s!"standard_builtins: {s.standardBuiltins} \x7d"

end Settings

end LiveLisp
