import Mathlib.Data.Nat.Bitwise
import Fafo.Routing

/-! The edge Worker's guess at an object's instance, and the workers that instance claims. -/
namespace Fafo.Edge

/-- Names and settings, character by character. -/
abbrev Text := List Char

def logicalWorkers : Nat := 64

/-- FNV-1a over `BigInt`, masked to 64 bits after each multiplication. -/
def edgeWorker (object : String) (logical : Nat) : Nat :=
  let h := object.toUTF8.toList.foldl
    (fun h b => (h ^^^ b.toNat) * 0x100000001b3 &&& 0xffffffffffffffff) 0xcbf29ce484222325
  h % logical

def instanceName (n : Nat) : Text := "fafo-".toList ++ Nat.toDigits 10 n

def instanceFor (worker instances : Nat) : Text :=
  instanceName (worker * instances / logicalWorkers)

/-- `Number` of a string of decimal digits. -/
def number (s : Text) : Nat := Nat.ofDigitChars 10 s 0

/-- An integer in a template string. -/
def shown : Int → Text
  | .ofNat n => Nat.toDigits 10 n
  | .negSucc n => '-' :: Nat.toDigits 10 (n + 1)

/-- The `CLAIM` that the instance of this name is started with. -/
def claim (name : Text) (instances : Nat) : Text :=
  let n := number ((name.splitOn '-')[1]?.getD "0".toList)
  let lo := n * logicalWorkers / instances
  let hi : Int := ((n + 1) * logicalWorkers / instances : Nat) - 1
  shown lo ++ '-' :: shown hi

inductive ClaimSpec where
  | all
  | workers (ws : List Nat)
  | auto (k : Nat)
  deriving DecidableEq, Repr

def unsigned : Text → Text
  | '+' :: ds => ds
  | ds => ds

/-- `str::parse::<usize>`. -/
def parseUsize (s : Text) : Option Nat :=
  let n := Nat.ofDigitChars 10 (unsigned s) 0
  if unsigned s ≠ [] ∧ (unsigned s).all Char.isDigit ∧ n < 2 ^ 64 then some n else none

/-- `str::split_once`. -/
def splitOnce (sep : Char) : Text → Option (Text × Text)
  | [] => none
  | c :: cs => if c = sep then some ([], cs) else (splitOnce sep cs).map fun (a, b) => (c :: a, b)

/-- The range `a..=b`, cut off at the last worker, if the spec is one. -/
def parseRange (spec : Text) (logical : Nat) : Option (List Nat) :=
  match splitOnce '-' spec with
  | some (a, b) =>
    match parseUsize a, parseUsize b with
    | some a, some b => some (List.range' a (min b (logical - 1) + 1 - a))
    | _, _ => none
  | none => none

/-- "all", "auto:16", "7", or "0-15". -/
def ClaimSpec.parse (spec : Text) (logical : Nat) : ClaimSpec :=
  if spec = "all".toList then .all else
  let auto := if "auto:".toList.isPrefixOf spec then parseUsize (spec.drop 5) else none
  match auto with
  | some k => .auto k
  | none =>
    match parseRange spec logical with
    | some ws => .workers ws
    | none => .workers ((parseUsize spec).map fun w => [w]).toList.flatten

/-- The workers the instance of this name is to host. -/
def hosted (name : Text) (instances : Nat) : List Nat :=
  match ClaimSpec.parse (claim name instances) logicalWorkers with
  | .workers ws => ws
  | _ => []

theorem and_mask (n : Nat) : n &&& 0xffffffffffffffff = n % 2 ^ 64 :=
  Nat.and_two_pow_sub_one_eq_mod n 64

theorem fnv_step (h : UInt64) (b : UInt8) :
    (h.toNat ^^^ b.toNat) * 0x100000001b3 &&& 0xffffffffffffffff =
      ((h ^^^ b.toUInt64) * 0x100000001b3).toNat := by
  rw [and_mask, UInt64.toNat_mul, UInt64.toNat_xor]
  rfl

/-- Both sides of the wire hash an object to the same worker. -/
theorem edgeWorker_eq (object : String) (logical : Nat) :
    edgeWorker object logical = Submission.defaultWorker object logical := by
  have hfold : ∀ (bytes : List UInt8) (h : UInt64),
      bytes.foldl (fun h b => (h ^^^ b.toNat) * 0x100000001b3 &&& 0xffffffffffffffff) h.toNat =
        (bytes.foldl (fun h b => (h ^^^ b.toUInt64) * 0x100000001b3) h).toNat := by
    intro bytes
    induction bytes with
    | nil => exact fun _ => rfl
    | cons b bytes ih =>
      intro h
      rw [List.foldl_cons, List.foldl_cons, fnv_step]
      exact ih _
  have hstart := hfold object.toUTF8.toList 0xcbf29ce484222325
  unfold edgeWorker Submission.defaultWorker Boot.fnv1a
  dsimp only
  rw [← hstart]
  rfl

theorem number_toDigits (n : Nat) : number (Nat.toDigits 10 n) = n := Nat.ofDigitChars_ten_toDigits

theorem isDigit_toDigits {n : Nat} {c : Char} (h : c ∈ Nat.toDigits 10 n) : c.isDigit = true :=
  Nat.isDigit_of_mem_toDigits (by omega) (by omega) h

theorem dash_toDigits {n : Nat} {c : Char} (h : c ∈ Nat.toDigits 10 n) : c ≠ '-' := by
  rintro rfl
  exact absurd (isDigit_toDigits h) (by decide)

theorem unsigned_of_head {s : Text} (h : ∀ ds, s ≠ '+' :: ds) : unsigned s = s := by
  unfold unsigned
  split
  · next ds => exact absurd rfl (h ds)
  · rfl

theorem parseUsize_toDigits {n : Nat} (h : n < 2 ^ 64) :
    parseUsize (Nat.toDigits 10 n) = some n := by
  have hall : (Nat.toDigits 10 n).all Char.isDigit := List.all_eq_true.mpr fun _ => isDigit_toDigits
  have hsign : unsigned (Nat.toDigits 10 n) = Nat.toDigits 10 n := by
    refine unsigned_of_head fun ds heq => ?_
    have hmem : '+' ∈ Nat.toDigits 10 n := heq ▸ List.mem_cons_self
    exact absurd (isDigit_toDigits hmem) (by decide)
  simp only [parseUsize, hsign, Nat.ofDigitChars_ten_toDigits]
  rw [if_pos ⟨Nat.toDigits_ne_nil, hall, h⟩]

theorem parseUsize_dash {s : Text} (h : '-' ∈ s) : parseUsize s = none := by
  have hmem : '-' ∈ unsigned s := by
    unfold unsigned
    split
    · simpa using h
    · exact h
  have hall : (unsigned s).all Char.isDigit = false :=
    List.all_eq_false.mpr ⟨'-', hmem, by decide⟩
  simp [parseUsize, hall]

theorem splitOnce_append {sep : Char} {a b : Text} (h : ∀ c ∈ a, c ≠ sep) :
    splitOnce sep (a ++ sep :: b) = some (a, b) := by
  induction a with
  | nil => simp [splitOnce]
  | cons c a ih =>
    obtain ⟨hc, ha⟩ := List.forall_mem_cons.mp h
    simp [splitOnce, hc, ih ha]

/-- The constructor reads back the number that `instanceFor` put into the name. -/
theorem number_instanceName (n : Nat) :
    number (((instanceName n).splitOn '-')[1]?.getD "0".toList) = n := by
  have hsplit : (instanceName n).splitOn '-' = ["fafo".toList, Nat.toDigits 10 n] := by
    have hfafo : ∀ c ∈ "fafo".toList, (c == '-') = false := by simp
    have hdigits : ∀ c ∈ Nat.toDigits 10 n, (c == '-') = false := fun c hc => by
      simpa using dash_toDigits hc
    have hname : instanceName n = "fafo".toList ++ '-' :: Nat.toDigits 10 n := rfl
    rw [hname, List.splitOn, List.splitOnP_append_cons_of_forall_mem hfafo '-' rfl,
      List.splitOnP_eq_singleton hdigits]
  rw [hsplit]
  exact number_toDigits n

theorem instanceName_injective {m n : Nat} (h : instanceName m = instanceName n) : m = n := by
  have hnumber := congrArg (fun s => number ((s.splitOn '-')[1]?.getD "0".toList)) h
  rwa [number_instanceName, number_instanceName] at hnumber

/-- A spec that begins with a digit is neither "all" nor "auto:". -/
theorem parse_digit {spec : Text} {c : Char} {cs : Text} (h : spec = c :: cs)
    (hc : c.isDigit = true) : ClaimSpec.parse spec logicalWorkers =
      .workers ((parseRange spec logicalWorkers).getD
        ((parseUsize spec).map fun w => [w]).toList.flatten) := by
  have hca : c ≠ 'a' := by
    rintro rfl
    exact absurd hc (by decide)
  have hall : spec ≠ "all".toList := by
    rw [h]
    intro heq
    exact hca (List.cons.inj heq).1
  have hauto : "auto:".toList.isPrefixOf spec = false := by
    rw [h]
    have hbeq : ('a' == c) = false := by simpa using fun h => hca h.symm
    change (('a' == c) && _) = false
    rw [hbeq]
    rfl
  unfold ClaimSpec.parse
  rw [if_neg hall, hauto]
  cases parseRange spec logicalWorkers with
  | none => rfl
  | some ws => rfl

/-- The constructor's `lo` and the end of its range. -/
def lowest (n instances : Nat) : Nat := n * logicalWorkers / instances

theorem claim_instanceName (n instances : Nat) :
    claim (instanceName n) instances = Nat.toDigits 10 (lowest n instances) ++
      '-' :: shown ((lowest (n + 1) instances : Nat) - 1) := by
  unfold claim
  rw [number_instanceName]
  rfl

theorem lowest_le {n instances : Nat} (hn : n < instances) :
    lowest (n + 1) instances ≤ logicalWorkers := by
  unfold lowest
  apply Nat.div_le_of_le_mul
  exact Nat.mul_le_mul_right _ hn

theorem lowest_mono (n instances : Nat) : lowest n instances ≤ lowest (n + 1) instances :=
  Nat.div_le_div_right (Nat.mul_le_mul_right _ (Nat.le_succ n))

theorem parseRange_claim {n instances : Nat} (hn : n < instances) :
    parseRange (claim (instanceName n) instances) logicalWorkers =
      if lowest (n + 1) instances = 0 then none else
        some (List.range' (lowest n instances)
          (lowest (n + 1) instances - lowest n instances)) := by
  have hend := lowest_le hn
  have hle := lowest_mono n instances
  unfold logicalWorkers at hend
  have hlo : parseUsize (Nat.toDigits 10 (lowest n instances)) = some (lowest n instances) :=
    parseUsize_toDigits (by omega)
  rw [claim_instanceName, parseRange, splitOnce_append fun c => dash_toDigits]
  cases hk : lowest (n + 1) instances with
  | zero =>
    have hhi : shown ((0 : Nat) - 1) = '-' :: Nat.toDigits 10 1 := rfl
    rw [hhi]
    simp only [hlo, parseUsize_dash (s := '-' :: _) List.mem_cons_self, if_true]
  | succ k =>
    have hhi : shown ((k + 1 : Nat) - 1) = Nat.toDigits 10 k := by
      rw [show (((k + 1 : Nat) : Int) - 1) = (k : Int) by omega]
      rfl
    rw [hhi]
    simp only [hlo, parseUsize_toDigits (show k < 2 ^ 64 by omega)]
    rw [if_neg (by omega), show min k (logicalWorkers - 1) = k by unfold logicalWorkers; omega]

/-- An instance hosts the workers of its range. -/
theorem mem_hosted {n instances w : Nat} (hn : n < instances) :
    w ∈ hosted (instanceName n) instances ↔
      lowest n instances ≤ w ∧ w < lowest (n + 1) instances := by
  have hle := lowest_mono n instances
  obtain ⟨c, cs, hdigits⟩ := List.exists_cons_of_ne_nil
    (Nat.toDigits_ne_nil (n := lowest n instances) (b := 10))
  have hc : c.isDigit = true := isDigit_toDigits (n := lowest n instances) (by simp [hdigits])
  have hspec := claim_instanceName n instances
  rw [hdigits] at hspec
  unfold hosted
  rw [parse_digit hspec hc, parseRange_claim hn]
  by_cases hzero : lowest (n + 1) instances = 0
  · have hdash : parseUsize (claim (instanceName n) instances) = none := by
      refine parseUsize_dash ?_
      rw [claim_instanceName]
      simp
    rw [if_pos hzero, hdash]
    simp
    omega
  · rw [if_neg hzero]
    simp only [Option.getD_some, List.mem_range'_1]
    omega

/-- In a fleet of `instances`, the edge sends the object to the one instance that hosts the worker
a node computes for it. -/
def Agrees (object : String) (instances : Nat) : Prop :=
  ∀ n < instances,
    instanceFor (edgeWorker object logicalWorkers) instances = instanceName n ↔
      Submission.defaultWorker object logicalWorkers ∈ hosted (instanceName n) instances

/-- Rounding down on both sides agrees for a worker unless a seam falls inside it. -/
theorem range_iff {w n instances : Nat} (hI : 0 < instances) :
    lowest n instances ≤ w ∧ w < lowest (n + 1) instances ↔
      n * 64 < (w + 1) * instances ∧ (w + 1) * instances ≤ (n + 1) * 64 := by
  unfold lowest logicalWorkers
  have hlo : n * 64 / instances ≤ w ↔ n * 64 < (w + 1) * instances := by
    rw [← Nat.lt_succ_iff, Nat.div_lt_iff_lt_mul hI]
  have hhi : w < (n + 1) * 64 / instances ↔ (w + 1) * instances ≤ (n + 1) * 64 :=
    Nat.le_div_iff_mul_le hI
  rw [hlo, hhi]

/-- The edge and the nodes agree on an object exactly when its worker's share of the fleet ends no
later than the next instance begins. -/
theorem edge_agrees_iff (object : String) (instances : Nat) (hI : 1 ≤ instances) :
    Agrees object instances ↔
      Submission.defaultWorker object logicalWorkers * instances % logicalWorkers + instances ≤
        logicalWorkers := by
  have hw : Submission.defaultWorker object logicalWorkers < 64 := Nat.mod_lt _ (by decide)
  unfold Agrees instanceFor
  rw [edgeWorker_eq]
  generalize Submission.defaultWorker object logicalWorkers = w at hw
  unfold logicalWorkers
  have hdiv : w * instances / 64 < instances := by
    rw [Nat.div_lt_iff_lt_mul (by omega), Nat.mul_comm instances]
    exact Nat.mul_lt_mul_of_pos_right hw hI
  have hsucc : (w + 1) * instances = w * instances + instances := Nat.succ_mul w instances
  constructor
  · intro h
    have hmem := (h (w * instances / 64) hdiv).mp rfl
    obtain ⟨_, hseam⟩ := (range_iff hI).mp ((mem_hosted hdiv).mp hmem)
    omega
  · intro h n hn
    rw [mem_hosted hn, range_iff hI]
    constructor
    · intro heq
      obtain rfl := instanceName_injective heq
      omega
    · rintro ⟨hlo, hhi⟩
      have heq : w * instances / 64 = n := by omega
      rw [heq]

/-- The deployed fleet of four, and a fleet of three. -/
theorem edge_agrees_four : Agrees "r" 4 :=
  (edge_agrees_iff "r" 4 (by decide)).mpr (by decide +kernel)

/-- Object "r" hashes to worker 21, which instance 1 of 3 hosts: its range starts at ⌊64 / 3⌋. The
edge computes ⌊21 · 3 / 64⌋ and sends it to instance 0. -/
theorem seam_worker_misrouted : ¬ Agrees "r" 3 := by
  intro h
  have hworker : Submission.defaultWorker "r" logicalWorkers = 21 := by decide +kernel
  have hmem : 21 ∈ hosted (instanceName 0) 3 := by
    rw [← hworker]
    refine (h 0 (by decide)).mp ?_
    rw [edgeWorker_eq, hworker]
    rfl
  exact absurd ((mem_hosted (by decide)).mp hmem).2 (by decide)

end Fafo.Edge
