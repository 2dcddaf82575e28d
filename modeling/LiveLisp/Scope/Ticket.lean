/-
  Tickets: how everything else names a scope record. The generation tells a record from the earlier
  tenants of its slot.

  Both parts are natural numbers here and 32-bit words in memory. So what is proved of stores is for
  fewer than `2 ^ 32` slots and fewer than `2 ^ 32` removals from one slot; after as many as that an
  old ticket would come to name a later record.
-/
namespace LiveLisp

structure Ticket where
  index : Nat
  generation : Nat
deriving DecidableEq, Repr, Inhabited

def Ticket.render (t : Ticket) : String :=
  s!"#{t.index}v{t.generation}"

end LiveLisp
