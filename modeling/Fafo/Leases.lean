import Fafo.Store

/-! The lease space: which epochs of a block's lease there are, and what a node reads of them. -/
namespace Fafo.Leases

/-- A key under `_lease/`: `b<block>/e<epoch>.json`, its `.released` tombstone, or a name that
parses as neither. -/
inductive LeaseKey where
  | lease (block epoch : Nat)
  | tombstone (block epoch : Nat)
  | other (name : Nat)
  deriving DecidableEq, Repr

/-- The epoch a key names for a block. -/
def LeaseKey.epochOf (block : Nat) : LeaseKey → Option Nat
  | lease b epoch => if b = block then some epoch else none
  | _ => none

/-- The highest epoch among the listed keys. -/
def maxEpoch (keys : List LeaseKey) (block : Nat) : Option Nat :=
  (keys.filterMap (LeaseKey.epochOf block)).max?

/-- No block that is held at an epoch is listed at a higher one. -/
def Current (keys : List LeaseKey) (epochs : List (Nat × Nat)) : Prop :=
  ∀ held ∈ epochs, (maxEpoch keys held.1).getD 0 ≤ held.2

instance (keys : List LeaseKey) (epochs : List (Nat × Nat)) : Decidable (Current keys epochs) :=
  inferInstanceAs (Decidable (∀ held ∈ epochs, (maxEpoch keys held.1).getD 0 ≤ held.2))

end Fafo.Leases
