/-
  Copies of machines. A copy has closures of its own: places that hold one closure in the machine
  hold one closure in the copy, and it is none of the machine's. Code is shared, and with it the
  closures among its constants, so a constant pushed after the copying differs from the same
  constant pushed before.

  Code compiled from text has no closures among its constants, and a machine that runs only such
  code is its own copy.

  Here a copy lists the bindings of a scope in the order of the original, where hash maps that are
  built anew may list them in any order. Nothing that a session shows depends on the order.
-/
import LiveLisp.Machine.Basic

namespace LiveLisp

/-- The closure that stands for this one in a copy. One that a machine has built meets no other
machine's, so its number can stay. -/
def ClosureId.copy : ClosureId → ClosureId
  | .literal number copies => .literal number (copies + 1)
  | .built number => .built number

namespace Value

mutual
def copy : Value → Value
  | closure id names body scope => closure id.copy names body scope
  | list items => list (copyAll items)
  | v => v
def copyAll : List Value → List Value
  | [] => []
  | item :: items => copy item :: copyAll items
end

end Value

/-- The same counts and tickets, over copied values. -/
def Record.copy (r : Record) : Record :=
  { r with bindings := r.bindings.map fun (name, v) => (name, v.copy) }

def Store.copy (s : Store) : Store :=
  { s with slots := s.slots.map fun slot => { slot with record := slot.record.map Record.copy } }

def Context.copy (c : Context) : Context :=
  { c with values := c.values.map Value.copy }

def Machine.copy (m : Machine) : Machine :=
  { m with context := m.context.copy, memory := { m.memory with store := m.memory.store.copy } }

end LiveLisp
