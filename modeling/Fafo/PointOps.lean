import Fafo.Store

/-! The operations on one blob, and the store that is meant: one of them at a time. -/
namespace Fafo

open Interleave

/-- The operations on one blob. -/
inductive PointOp (K V : Type) where
  | get (key : K)
  | put (key : K) (bytes : V)
  | delete (key : K)
  | create (key : K) (bytes : V)

namespace PointOp

variable {K V : Type}

def op : PointOp K V → StoreOp K V
  | get key => .get key
  | put key bytes => .put key bytes
  | delete key => .delete key
  | create key bytes => .create key bytes

end PointOp

abbrev points (K V : Type) : Signature := ⟨PointOp K V, fun o => Except Error o.op.Value⟩

/-- One operation at a time; it works, or it fails and nothing has happened. -/
def atomic (K V : Type) [DecidableEq K] : Machine (points K V) (Blobs K V) Bool :=
  ⟨fun works o b =>
    if works then (.ok (o.op.value b), o.op.effect b) else (.error .unavailable, b)⟩

end Fafo
