import Consensus.Protocol.Message

/-! # Deliveries

Committed commands leave a server in index order. The list of what was handed
out so far stands for every state machine, since a state machine sees nothing else.
-/

namespace Consensus

/-- A command handed to the state machine, and the index at which it was committed. -/
structure Delivery where
  index : Index
  command : Command
  deriving DecidableEq, Repr

/-- What the state machine has been handed, oldest first. -/
structure Deliveries where
  toList : List Delivery := []
  deriving DecidableEq, Repr

namespace Deliveries

def push (deliveries : Deliveries) (index : Index) (command : Command) : Deliveries :=
  ⟨deliveries.toList ++ [⟨index, command⟩]⟩

def size (deliveries : Deliveries) : Nat := deliveries.toList.length

def isEmpty (deliveries : Deliveries) : Bool := deliveries.toList.isEmpty

def payloads (deliveries : Deliveries) : List Bytes :=
  deliveries.toList.map (·.command.payload)

/-- What was handed out after the first `count` commands. -/
def since (deliveries : Deliveries) (count : Nat) : List Delivery :=
  deliveries.toList.drop count

@[simp] theorem toList_push (deliveries : Deliveries) (index : Index) (command : Command) :
    (deliveries.push index command).toList = deliveries.toList ++ [⟨index, command⟩] := rfl

end Deliveries

end Consensus
