import Mathlib.Data.List.Dedup
import Mathlib.Logic.Function.Basic
import Fafo.Leases

/-! Node incarnations over the lease space: claiming, re-adopting, verifying and tombstoning block
leases. -/
namespace Fafo.Leases

/-- What a lease key holds; `garbled` does not deserialize. -/
inductive LeaseBlob where
  | lease (addr : Nat)
  | released
  | garbled
  deriving DecidableEq, Repr

structure LeaseState where
  epoch : Nat
  addr : Nat
  released : Bool
  deriving DecidableEq, Repr

/-- One run of a node process. -/
structure Incarnation where
  addr : Nat
  epochs : List (Nat × Nat) := []
  fenced : Bool := false
  deriving Repr

/-- `epochs.insert`. -/
def Incarnation.hold (n : Incarnation) (block epoch : Nat) : Incarnation :=
  { n with epochs := (block, epoch) :: n.epochs.filter fun held => held.1 ≠ block }

/-- Which blocks `start` tries, in order, and how many of those without a lease it may take. -/
structure ClaimSpec where
  candidates : List Nat
  quota : Nat
  deriving Repr

abbrev LeaseMap := Nat → Option LeaseState

def LeaseKey.block : LeaseKey → Option Nat
  | lease b _ | tombstone b _ => some b
  | other _ => none

def blocksOf (keys : List LeaseKey) : List Nat := (keys.filterMap LeaseKey.block).dedup

/-- Where a task of an incarnation stands. -/
inductive Task where
  | booting (spec : ClaimSpec)
  | loading (spec : ClaimSpec) (todo : List Nat) (keys : List LeaseKey) (leases : LeaseMap)
  | releasing (spec : ClaimSpec) (todo : List Nat) (leases : LeaseMap)
  | claiming (spec : ClaimSpec) (todo : List Nat) (leases : LeaseMap) (alive : Nat → Option Bool)
      (fresh : Nat)
  | claimed (block epoch : Nat) (spec : ClaimSpec) (todo : List Nat) (leases : LeaseMap)
      (alive : Nat → Option Bool) (fresh : Nat)
  | touching (block : Nat)
  | resolving (block epoch : Nat) (released : Bool)
  | adopting (block epoch : Nat)
  | guarding
  | verifying (epochs : List (Nat × Nat))
  | stopping
  | tombstoning (todo : List (Nat × Nat))
  | done

/-- Any number of tasks, each of one incarnation. For the record: the leases that were created,
newest first. -/
structure State where
  store : Blobs LeaseKey LeaseBlob
  nodes : Nat → Incarnation
  tasks : Nat → Nat × Task
  created : List (Nat × Nat) := []

/-- The environment's choices for one operation: its fate, and whether a lease holder's health check
works. -/
structure Env where
  fault : Fault := .none
  healthy : Bool := true
  deriving DecidableEq, Repr

namespace State

def become (s : State) (i : Nat) (task : Task) : State :=
  { s with tasks := Function.update s.tasks i ((s.tasks i).1, task) }

def setNode (s : State) (n : Nat) (node : Incarnation) : State :=
  { s with nodes := Function.update s.nodes n node }

/-- Create-if-absent. -/
def create (s : State) (key : LeaseKey) (blob : LeaseBlob) (fault : Fault) :
    Except Error Bool × State :=
  let absent := (s.store.lookup key).isNone
  let created := if absent then { s with store := s.store.insert key blob } else s
  match fault with
  | .none => (.ok absent, created)
  | .failed => (.error .unavailable, s)
  | .lost => (.error .unavailable, created)

/-- The create of a lease. -/
def createLease (s : State) (block epoch addr : Nat) (fault : Fault) : Except Error Bool × State :=
  let (r, s') := s.create (.lease block epoch) (.lease addr) fault
  if (s.store.lookup (.lease block epoch)).isNone ∧ fault ≠ .failed then
    (r, { s' with created := (block, epoch) :: s.created })
  else (r, s')

/-- `load_leases` reads the lease of the next block. -/
def load (s : State) (i : Nat) (spec : ClaimSpec) (todo : List Nat) (keys : List LeaseKey)
    (leases : LeaseMap) (e : Env) : State :=
  match todo with
  | [] => s.become i (.releasing spec (blocksOf keys) leases)
  | block :: todo =>
    match maxEpoch keys block with
    | none => s.become i (.loading spec todo keys leases)
    | some epoch =>
      if e.fault ≠ .none then s.become i .done else
      match s.store.lookup (.lease block epoch) with
      | none => s.become i (.loading spec todo keys leases)
      | some (.lease addr) =>
        s.become i (.loading spec todo keys (Function.update leases block
          (some ⟨epoch, addr, decide (.tombstone block epoch ∈ keys)⟩)))
      | some _ => s.become i .done

/-- Boot with nothing: an unreleased lease in our name is a crashed predecessor's. -/
def release (s : State) (i : Nat) (spec : ClaimSpec) (todo : List Nat) (leases : LeaseMap)
    (e : Env) : State :=
  match todo with
  | [] => s.become i (.claiming spec spec.candidates leases (fun _ => none) 0)
  | block :: todo =>
    match leases block with
    | some lease =>
      if lease.addr = (s.nodes (s.tasks i).1).addr ∧ lease.released = false then
        (s.create (.tombstone block lease.epoch) .released e.fault).2.become i
          (.releasing spec todo (Function.update leases block
            (some { lease with released := true })))
      else s.become i (.releasing spec todo leases)
    | none => s.become i (.releasing spec todo leases)

/-- The holder's health is checked once for each address. -/
def health (alive : Nat → Option Bool) (addr : Nat) (healthy : Bool) : Bool :=
  (alive addr).getD healthy

/-- `start` tries the next candidate block. -/
def claim (s : State) (i : Nat) (spec : ClaimSpec) (todo : List Nat) (leases : LeaseMap)
    (alive : Nat → Option Bool) (fresh : Nat) (e : Env) : State :=
  match todo with
  | [] => s.become i .done
  | block :: todo =>
    let addr := (s.nodes (s.tasks i).1).addr
    let ours : LeaseState → Bool := fun lease => lease.released || decide (lease.addr = addr)
    let claimable := match leases block with
      | some lease => ours lease || !health alive lease.addr e.healthy
      | none => true
    let alive := match leases block with
      | some lease =>
        if ours lease then alive
        else Function.update alive lease.addr (some (health alive lease.addr e.healthy))
      | none => alive
    if !claimable then s.become i (.claiming spec todo leases alive fresh) else
    if (leases block).isNone ∧ spec.quota ≤ fresh then
      s.become i (.claiming spec todo leases alive fresh) else
    let epoch := ((leases block).map LeaseState.epoch).getD 0 + 1
    match s.createLease block epoch addr e.fault with
    | (.error _, s) => s.become i .done
    | (.ok false, s) => s.become i (.claiming spec todo leases alive fresh)
    | (.ok true, s) => s.become i (.claimed block epoch spec todo leases alive fresh)

/-- The task's next operation. -/
def run (s : State) (i : Nat) (e : Env) : State :=
  let n := (s.tasks i).1
  match (s.tasks i).2 with
  | .booting spec =>
    if e.fault ≠ .none then s.become i .done else
      s.become i (.loading spec (blocksOf s.store.keys) s.store.keys fun _ => none)
  | .loading spec todo keys leases => s.load i spec todo keys leases e
  | .releasing spec todo leases => s.release i spec todo leases e
  | .claiming spec todo leases alive fresh => s.claim i spec todo leases alive fresh e
  | .claimed block epoch spec todo leases alive fresh =>
    (s.setNode n ((s.nodes n).hold block epoch)).become i (.claiming spec todo leases alive
      (if (leases block).isNone then fresh + 1 else fresh))
  | .touching block =>
    if block ∈ (s.nodes n).epochs.map Prod.fst ∨ e.fault ≠ .none then s.become i .done else
    match maxEpoch s.store.keys block with
    | some epoch => s.become i (.resolving block epoch
        (decide (.tombstone block epoch ∈ s.store.keys)))
    | none => s.become i .done
  | .resolving block epoch released =>
    if e.fault ≠ .none then s.become i .done else
    match s.store.lookup (.lease block epoch) with
    | some (.lease addr) =>
      if addr = (s.nodes n).addr ∧ released = false then s.become i (.adopting block epoch)
      else s.become i .done
    | _ => s.become i .done
  | .adopting block epoch => (s.setNode n ((s.nodes n).hold block epoch)).become i .done
  | .guarding => s.become i (.verifying (s.nodes n).epochs)
  | .verifying epochs =>
    if e.fault ≠ .none ∨ Current s.store.keys epochs then s.become i .done
    else (s.setNode n { s.nodes n with fenced := true }).become i .done
  | .stopping => s.become i (.tombstoning (s.nodes n).epochs)
  | .tombstoning [] => (s.setNode n { s.nodes n with epochs := [] }).become i .done
  | .tombstoning ((block, epoch) :: todo) =>
    (s.create (.tombstone block epoch) .released e.fault).2.become i (.tombstoning todo)
  | .done => s

end State

inductive Move where
  | run (i : Nat) (e : Env)
  | crash (n : Nat)
  deriving DecidableEq, Repr

def State.step (s : State) : Move → State
  | .run i e => s.run i e
  | .crash n => s.setNode n { s.nodes n with fenced := true }

/-- `start`, `ensure_local_sender`, `verify_leases` and `shutdown`, about to begin. -/
def Task.Fresh : Task → Prop
  | booting _ | touching _ | guarding | stopping => True
  | _ => False

end Fafo.Leases
