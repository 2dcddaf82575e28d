/-
  What a session remembers of the past: keyframes by step, the last call of each named function, and
  the answers of hosts that may not answer the same again.

  Keyframes are listed with the latest first.
-/
import LiveLisp.Json.Basic
import LiveLisp.Machine.Basic

namespace LiveLisp

/-- A program between two steps, with whatever state its capabilities chose to save. -/
structure Snapshot where
  step : Nat
  machine : Machine
  states : List (Option Json)
deriving Inhabited

structure Timeline where
  keyframes : List Snapshot
  checkpoints : NameMap Snapshot
  answers : List (Nat × Value)
deriving Inhabited

namespace Timeline

def empty : Timeline := ⟨[], [], []⟩

def hasKeyframe (t : Timeline) (step : Nat) : Bool :=
  t.keyframes.any (·.step == step)

/-- Puts a keyframe in its place among later and earlier ones, instead of one at the same step. -/
def insertKeyframe (k : Snapshot) : List Snapshot → List Snapshot
  | [] => [k]
  | other :: rest =>
    if other.step < k.step then k :: other :: rest
    else if other.step = k.step then k :: rest
    else other :: insertKeyframe k rest

/-- Forgets the oldest keyframes beyond `limit`, but never the one at the start. -/
def evict (limit : Nat) (keyframes : List Snapshot) : List Snapshot :=
  if keyframes.length ≤ max limit 1 then keyframes
  else
    let start := keyframes.filter (·.step == 0)
    (keyframes.filter (·.step != 0)).take (max limit 1 - start.length) ++ start

def recordKeyframe (t : Timeline) (k : Snapshot) (limit : Nat) : Timeline :=
  { t with keyframes := evict limit (insertKeyframe k t.keyframes) }

/-- The latest keyframe that is not after `step`. -/
def keyframeBefore? (t : Timeline) (step : Nat) : Option Snapshot :=
  t.keyframes.find? (·.step ≤ step)

/-- The steps of the keyframes, the first one first. -/
def keyframeSteps (t : Timeline) : List Nat :=
  (t.keyframes.map (·.step)).reverse

/-- Only the last call of each function is kept. -/
def recordCheckpoint (t : Timeline) (name : String) (k : Snapshot) : Timeline :=
  { t with checkpoints := t.checkpoints.put name k }

def checkpoint? (t : Timeline) (name : String) : Option Snapshot :=
  t.checkpoints.get? name

/-- The name with the earliest checkpoint, and its step; of two at one step the first listed. -/
def earliest? (t : Timeline) (names : List String) : Option (String × Nat) :=
  names.foldl (fun best name =>
    match t.checkpoint? name, best with
    | none, _ => best
    | some k, none => some (name, k.step)
    | some k, some (other, step) =>
      if step ≤ k.step then some (other, step) else some (name, k.step))
    none

/-- Forgets everything after `step`. -/
def pruneAfter (t : Timeline) (step : Nat) : Timeline where
  keyframes := t.keyframes.filter (·.step ≤ step)
  checkpoints := t.checkpoints.filter (·.2.step ≤ step)
  answers := t.answers.filter (·.1 ≤ step)

end Timeline

/-- The answer remembered for a step. -/
def answerAt? (step : Nat) : List (Nat × Value) → Option Value
  | [] => none
  | (other, v) :: rest => if other = step then some v else answerAt? step rest

/-- Remembers an answer, instead of an earlier one at the same step. -/
def recordAnswer (step : Nat) (v : Value) (answers : List (Nat × Value)) : List (Nat × Value) :=
  (step, v) :: answers.filter (·.1 != step)

end LiveLisp
