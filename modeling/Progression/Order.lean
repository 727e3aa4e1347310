import Progression.Job

/-!
Orders: what the order runner is asked to gather or to craft.
-/

namespace Progression

/-- One order, with every field of its written form. -/
structure Order where
  id : UInt32 := 1
  group : UInt32 := 1
  item : ItemId
  amount : UInt32
  enabled : Bool := true
  /-- The kind of work: `Gather`, or the title of a crafter. -/
  kind : String
  quickSynth : Bool := false
  suborderQuickSynth : Bool := false
  hq : Bool := false
  food : UInt32 := 0
  primary : Bool := true
  manual : UInt32 := 0
  medicine : UInt32 := 0
  deriving DecidableEq, Repr, Inhabited

/-- An order for an amount of an item, to be worked off by a class. -/
def Order.new (item : ItemId) (amount : UInt32) (producer : Job) : Order :=
  { item, amount, kind := producer.orderType }

end Progression
