import Mathlib.Data.List.AList
import Mathlib.Data.Finset.Basic
import Mathlib.Order.Lattice
import Fafo.Library.Words

/-! The protocol simulator: transfers over sequenced logs, one outcome key to a transfer. -/
namespace Fafo.Protosim

/-- `a/<o>/base`, `a/<o>/log/<seq>` and `o/<tid>`. -/
inductive Key (α τ : Type) where
  | base (o : α)
  | log (o : α) (seq : Nat)
  | outcome (tid : τ)
  deriving DecidableEq

inductive Cell (τ : Type) where
  | base (seq : Nat) (val : Int)
  | log (tid : τ) (delta : Int) (born : Nat)
  | outcome (committed : Bool)

abbrev Store (α τ : Type) := AList fun _ : Key α τ => Cell τ

variable {α τ : Type} [DecidableEq α] [DecidableEq τ]

namespace Store

def get (s : Store α τ) (k : Key α τ) : Option (Cell τ) := s.lookup k

/-- Create-if-absent, the only consensus primitive. -/
def create (s : Store α τ) (k : Key α τ) (c : Cell τ) : Bool × Store α τ :=
  if (s.get k).isNone then (true, s.insert k c) else (false, s)

def delete (s : Store α τ) (k : Key α τ) : Store α τ := s.erase k

theorem create_free {s : Store α τ} {k : Key α τ} (h : s.get k = none) (c : Cell τ) :
    s.create k c = (true, s.insert k c) := by
  simp [create, h]

theorem create_taken {s : Store α τ} {k : Key α τ} (h : s.get k ≠ none) (c : Cell τ) :
    s.create k c = (false, s) := by
  simp [create, h]

theorem get_insert (s : Store α τ) (k k' : Key α τ) (c : Cell τ) :
    get (s.insert k c) k' = if k' = k then some c else s.get k' := by
  by_cases h : k' = k
  · subst h
    simp [get]
  · simp [get, h, AList.lookup_insert_ne h]

theorem get_delete (s : Store α τ) (k k' : Key α τ) :
    (s.delete k).get k' = if k' = k then none else s.get k' := by
  by_cases h : k' = k
  · subst h
    simp [get, delete]
  · simp [get, delete, h, AList.lookup_erase_ne h]

end Store

/-- What the single outcome key says. -/
def resolved (s : Store α τ) (tid : τ) : Option Bool :=
  match s.get (.outcome tid) with
  | some (.outcome c) => some c
  | _ => none

def committed (s : Store α τ) (tid : τ) : Bool := resolved s tid == some true

/-- The delta the read loop finds at a slot, if it does not stop there. -/
def committedDelta (s : Store α τ) (o : α) (seq : Nat) : Option Int :=
  match s.get (.log o seq) with
  | some (.log tid delta _) => if committed s tid then some delta else none
  | _ => none

/-- The loop of `read_committed`. Each turn but the last finds another key, so the number of keys
is fuel enough. -/
def readLoop (s : Store α τ) (o : α) : Nat → Nat → Int → Nat × Int
  | 0, seq, val => (seq, val)
  | fuel + 1, seq, val =>
    match committedDelta s o (seq + 1) with
    | some delta => readLoop s o fuel (seq + 1) (val + delta)
    | none => (seq, val)

/-- The base and the contiguous committed entries above it. -/
def readCommitted (s : Store α τ) (o : α) : Nat × Int :=
  let (seq, val) : Nat × Int :=
    match s.get (.base o) with
    | some (.base seq val) => (seq, val)
    | _ => (0, 0)
  readLoop s o s.keys.length seq val

/-- The loop of `read_committed` in signed words; `none` is a panic. -/
def readLoopWords (build : Words.Build) (s : Store α τ) (o : α) :
    Nat → Nat → Int → Option (Nat × Int)
  | 0, seq, val => some (seq, val)
  | fuel + 1, seq, val =>
    match committedDelta s o (seq + 1) with
    | some delta =>
      (Words.addSigned build val delta).bind fun val => readLoopWords build s o fuel (seq + 1) val
    | none => some (seq, val)

def readCommittedWords (build : Words.Build) (s : Store α τ) (o : α) : Option (Nat × Int) :=
  let (seq, val) : Nat × Int :=
    match s.get (.base o) with
    | some (.base seq val) => (seq, val)
    | _ => (0, 0)
  readLoopWords build s o s.keys.length seq val

/-- Ticks a prewrite may sit before a peer may resolve it. -/
def ttl : Nat := 40

/-- Try to free the slot; true if it is free now. -/
def resolveSlot (s : Store α τ) (o : α) (seq now : Nat) : Bool × Store α τ :=
  match s.get (.log o seq) with
  | none => (true, s)
  | some (.log tid _ born) =>
    match resolved s tid with
    | some true => (false, s)
    | some false => (true, s.delete (.log o seq))
    | none =>
      if now - born ≤ ttl then (false, s) else
      let (won, s) := s.create (.outcome tid) (.outcome false)
      if won || resolved s tid == some false then (true, s.delete (.log o seq)) else (false, s)
  | some _ => (false, s)

/-- Delete a log entry only if it is still the given transfer's. -/
def safeDelete (s : Store α τ) (k : Key α τ) (tid : τ) : Store α τ :=
  match s.get k with
  | some (.log t _ _) => if t = tid then s.delete k else s
  | _ => s

inductive Step where
  | read
  | preLow
  | preHigh
  | commit
  | done
  | aborted
  | crashed
  deriving DecidableEq, Repr

structure Xfer (α τ : Type) where
  tid : τ
  payer : α
  amt : Int
  low : α
  high : α
  lowSeq : Nat
  highSeq : Nat
  lowDelta : Int
  highDelta : Int
  madeLow : Bool
  madeHigh : Bool
  step : Step
  retries : Nat
  resumeAt : Nat
  pauseBudget : Nat
  crash : Bool
  ackedCommit : Bool

/-- One scheduler tick: the clock, and the two draws that decide on a pause. -/
structure Tick where
  now : Nat
  coin : Nat
  spell : Nat

namespace Xfer

/-- A transfer of `amt` from `payer` to `payee`; its two accounts are ordered by name. -/
def new [LinearOrder α] (tid : τ) (payer payee : α) (amt : Int) (pauses : Nat) (crash : Bool) :
    Xfer α τ :=
  let low := if payer ≤ payee then payer else payee
  let high := if payer ≤ payee then payee else payer
  { tid := tid
    payer := payer
    amt := amt
    low := low
    high := high
    lowSeq := 0
    highSeq := 0
    lowDelta := if low = payer then -amt else amt
    highDelta := if low = payer then amt else -amt
    madeLow := false
    madeHigh := false
    step := .read
    retries := 0
    resumeAt := 0
    pauseBudget := pauses
    crash := crash
    ackedCommit := false }

def maybePause (x : Xfer α τ) (t : Tick) : Xfer α τ :=
  if x.pauseBudget > 0 ∧ t.coin % 2 = 0 then
    { x with
      pauseBudget := x.pauseBudget - 1
      resumeAt := t.now + (10 + t.spell % (ttl + 30)) }
  else x

/-- Delete only the entries that are still ours. -/
def rollback (x : Xfer α τ) (s : Store α τ) : Xfer α τ × Store α τ :=
  let s := if x.madeHigh then safeDelete s (.log x.high (x.highSeq + 1)) x.tid else s
  let s := if x.madeLow then safeDelete s (.log x.low (x.lowSeq + 1)) x.tid else s
  ({ x with madeLow := false, madeHigh := false }, s)

def resetOrGiveup (x : Xfer α τ) (s : Store α τ) : Xfer α τ × Store α τ :=
  let (x, s) := x.rollback s
  ({ x with
      retries := x.retries + 1
      resumeAt := 0
      step := if x.retries + 1 > 120 then .aborted else .read }, s)

/-- One store interaction. -/
def next (x : Xfer α τ) (s : Store α τ) (t : Tick) : Xfer α τ × Store α τ :=
  match x.step with
  | .read =>
    let (lo, lv) := readCommitted s x.low
    let (hi, _) := readCommitted s x.high
    let payerVal := if x.low = x.payer then lv else (readCommitted s x.payer).2
    if payerVal < x.amt then ({ x with step := .aborted }, s)
    else ({ x with lowSeq := lo, highSeq := hi, step := .preLow }, s)
  | .preLow =>
    let (made, s) := s.create (.log x.low (x.lowSeq + 1)) (.log x.tid x.lowDelta t.now)
    if made then
      ({ ({ x with madeLow := true } : Xfer α τ).maybePause t with step := .preHigh }, s)
    else
      let (free, s) := resolveSlot s x.low (x.lowSeq + 1) t.now
      if free then (x, s) else x.resetOrGiveup s
  | .preHigh =>
    let (made, s) := s.create (.log x.high (x.highSeq + 1)) (.log x.tid x.highDelta t.now)
    if made then
      if x.crash then ({ x with madeHigh := true, step := .crashed }, s)
      else ({ ({ x with madeHigh := true } : Xfer α τ).maybePause t with step := .commit }, s)
    else
      let (free, s) := resolveSlot s x.high (x.highSeq + 1) t.now
      if free then (x, s)
      else
        let (x, s) := x.rollback s
        x.resetOrGiveup s
  | .commit =>
    let (won, s) := s.create (.outcome x.tid) (.outcome true)
    if won then ({ x with ackedCommit := true, step := .done }, s)
    else
      let (x, s) := x.rollback s
      x.resetOrGiveup s
  | .done | .aborted | .crashed => (x, s)

/-- The same, with the balances read in signed words; no other step adds to one. -/
def nextWords (build : Words.Build) (x : Xfer α τ) (s : Store α τ) (t : Tick) :
    Option (Xfer α τ × Store α τ) :=
  match x.step with
  | .read =>
    (readCommittedWords build s x.low).bind fun (lo, lv) =>
    (readCommittedWords build s x.high).bind fun (hi, _) =>
    (if x.low = x.payer then some lv
      else (readCommittedWords build s x.payer).map Prod.snd).map fun payerVal =>
    if payerVal < x.amt then ({ x with step := .aborted }, s)
    else ({ x with lowSeq := lo, highSeq := hi, step := .preLow }, s)
  | _ => some (x.next s t)

variable {x : Xfer α τ} {s : Store α τ} {t : Tick}

theorem next_preLow_free (hstep : x.step = .preLow) (h : s.get (.log x.low (x.lowSeq + 1)) = none) :
    x.next s t = ({ ({ x with madeLow := true } : Xfer α τ).maybePause t with step := .preHigh },
      s.insert (.log x.low (x.lowSeq + 1)) (.log x.tid x.lowDelta t.now)) := by
  unfold next
  rw [hstep, Store.create_free h]
  rfl

theorem next_preLow_taken (hstep : x.step = .preLow)
    (h : s.get (.log x.low (x.lowSeq + 1)) ≠ none) :
    x.next s t = if (resolveSlot s x.low (x.lowSeq + 1) t.now).1
      then (x, (resolveSlot s x.low (x.lowSeq + 1) t.now).2)
      else x.resetOrGiveup (resolveSlot s x.low (x.lowSeq + 1) t.now).2 := by
  unfold next
  rw [hstep, Store.create_taken h]
  rfl

theorem next_preHigh_free (hstep : x.step = .preHigh)
    (h : s.get (.log x.high (x.highSeq + 1)) = none) :
    x.next s t = (if x.crash then { x with madeHigh := true, step := .crashed }
      else { ({ x with madeHigh := true } : Xfer α τ).maybePause t with step := .commit },
      s.insert (.log x.high (x.highSeq + 1)) (.log x.tid x.highDelta t.now)) := by
  unfold next
  rw [hstep, Store.create_free h]
  dsimp only
  rw [if_pos rfl]
  split_ifs <;> rfl

theorem next_preHigh_taken (hstep : x.step = .preHigh)
    (h : s.get (.log x.high (x.highSeq + 1)) ≠ none) :
    x.next s t = if (resolveSlot s x.high (x.highSeq + 1) t.now).1
      then (x, (resolveSlot s x.high (x.highSeq + 1) t.now).2)
      else (x.rollback (resolveSlot s x.high (x.highSeq + 1) t.now).2).1.resetOrGiveup
        (x.rollback (resolveSlot s x.high (x.highSeq + 1) t.now).2).2 := by
  unfold next
  rw [hstep, Store.create_taken h]
  rfl

theorem next_commit_free (hstep : x.step = .commit) (h : s.get (.outcome x.tid) = none) :
    x.next s t = ({ x with ackedCommit := true, step := .done },
      s.insert (.outcome x.tid) (.outcome true)) := by
  unfold next
  rw [hstep, Store.create_free h]
  rfl

theorem next_commit_taken (hstep : x.step = .commit) (h : s.get (.outcome x.tid) ≠ none) :
    x.next s t = (x.rollback s).1.resetOrGiveup (x.rollback s).2 := by
  unfold next
  rw [hstep, Store.create_taken h]
  rfl

end Xfer

/-- A transfer between two of the accounts. -/
structure Transfer (accounts : List α) where
  payer : α
  payee : α
  amt : Int
  pauses : Nat
  crash : Bool
  payer_mem : payer ∈ accounts
  payee_mem : payee ∈ accounts
  amt_pos : 0 < amt

/-- The accounts with their balances, which are signed words, and one transfer to each transaction
id. -/
structure Setup (α τ : Type) [DecidableEq α] where
  accounts : List α
  balance : α → Nat
  balance_lt : ∀ o, balance o < 2 ^ 63
  transfer : τ → Transfer accounts

structure Sim (α τ : Type) [DecidableEq α] [DecidableEq τ] where
  store : Store α τ
  workers : τ → Xfer α τ

/-- The bases that the run begins with. -/
def Setup.store (S : Setup α τ) : Store α τ :=
  S.accounts.foldl (fun s o => s.insert (.base o) (.base 0 (S.balance o))) ∅

def Setup.start [LinearOrder α] (S : Setup α τ) : Sim α τ :=
  { store := S.store
    workers := fun tid =>
      let t := S.transfer tid
      .new tid t.payer t.payee t.amt t.pauses t.crash }

/-- Worker `tid` is picked. -/
def Sim.pick (m : Sim α τ) (tid : τ) (t : Tick) : Sim α τ :=
  let (x, s) := (m.workers tid).next m.store t
  ⟨s, Function.update m.workers tid x⟩

/-- The same in words; after a panic there is no state. -/
def Sim.pickWords (build : Words.Build) (m : Option (Sim α τ)) (p : τ × Tick) :
    Option (Sim α τ) :=
  m.bind fun m => ((m.workers p.1).nextWords build m.store p.2).map fun (x, s) =>
    ⟨s, Function.update m.workers p.1 x⟩

end Fafo.Protosim
