import Fafo.Routing
import Fafo.StoreRules
import Fafo.Takeover

/-! Booting nodes: the shape of the cluster, which the first of them decides, and the placement that
each makes of the checkpoints. -/
namespace Fafo.ClusterBoot

open Interleave
open Submission (defaultWorker)

structure Shape where
  logical : Nat
  blocks : Nat
  deriving DecidableEq, Repr

/-- What is stored: the cluster's meta, which was written without `blocks` once, or something
else. -/
inductive MetaBlob where
  | clusterMeta (logical : Nat) (blocks : Option Nat)
  | other (bytes : Nat)
  deriving DecidableEq, Repr

def defaultBlocksLegacy : Nat := 64

def MetaBlob.shape : MetaBlob → Option Shape
  | clusterMeta logical blocks => some ⟨logical, blocks.getD defaultBlocksLegacy⟩
  | other _ => none

def metaKey : String := "_meta/cluster.json"

/-- What a node that is configured for so many workers would have. -/
def configured (logical : Nat) : Shape := ⟨logical, min logical 256⟩

def metaOf (s : Shape) : MetaBlob := .clusterMeta s.logical (some s.blocks)

variable {N : Type}

/-- The first steps of `start`; nothing is the answer where the meta does not deserialize. -/
def agree (logical : Nat) : Try String MetaBlob N (Option Shape) :=
  (Store.create metaKey (metaOf (configured logical))).attempt fun _ =>
    (Store.get metaKey).attempt fun stored =>
      .ret (.ok (match stored with
        | some blob => blob.shape
        | none => some (configured logical)))

/-- Everything that a node does besides leaves the meta alone. -/
def LeavesMeta : NodeOp String MetaBlob N → Prop
  | .store (.put key _) | .store (.delete key) | .store (.create key _) => key ≠ metaKey
  | _ => True

section Agreement

variable {ι : Type} (boots : ι → Option Nat)

/-- What is stored stays; nothing but a booting node's shape is stored. -/
def Decides (w w' : World String MetaBlob N) : Prop :=
  (∀ blob, w.get metaKey = some blob → w'.get metaKey = some blob) ∧
    (w.get metaKey = none → w'.get metaKey = none ∨
      ∃ i logical, boots i = some logical ∧ w'.get metaKey = some (metaOf (configured logical)))

instance : Std.Refl (Decides (N := N) boots) := ⟨fun _ => ⟨fun _ h => h, .inl⟩⟩

instance : IsTrans _ (Decides (N := N) boots) := ⟨by
  rintro u v w ⟨huv, huv'⟩ ⟨hvw, hvw'⟩
  refine ⟨fun blob h => hvw blob (huv blob h), fun h => ?_⟩
  rcases huv' h with hnone | ⟨i, logical, hi, hsome⟩
  · exact hvw' hnone
  · exact .inr ⟨i, logical, hi, hvw _ hsome⟩⟩

variable {boots} {admits : Env → Option (Event (nodeSig String MetaBlob N)) →
  NodeOp String MetaBlob N → World String MetaBlob N → Prop}

theorem decides_of_same {w w' : World String MetaBlob N} (h : w'.get metaKey = w.get metaKey) :
    Decides boots w w' := by
  rw [Decides, h]
  exact ⟨fun _ h => h, .inl⟩

/-- The shape is that of the meta that is stored. -/
def Agreed (r : Except Error (Option Shape)) (w : World String MetaBlob N) : Prop :=
  ∀ shape, r = .ok (some shape) → ∃ blob, w.get metaKey = some blob ∧ blob.shape = some shape

theorem agree_does {i : ι} {logical : Nat} (hi : boots i = some logical)
    (w : World String MetaBlob N) :
    Does node admits (Decides boots) (Decides boots) Agreed (agree logical) w := by
  refine StoreOp.does (fun t _ _ _ _ _ => ?_) fun r u _ hr => ?_
  · constructor
    · intro blob h
      rw [World.get_create, h]
      simp
    · intro h
      rw [World.get_create, h]
      exact .inr ⟨i, logical, hi, by simp⟩
  · cases r with
    | error e => exact Does.ret fun _ _ _ h => by cases h
    | ok created =>
      obtain ⟨t, _, _, rfl⟩ := hr created rfl
      have hstored : ∃ blob,
          (t.effect (.create metaKey (metaOf (configured logical)))).get metaKey = some blob := by
        rw [World.get_create]
        cases ht : t.get metaKey with
        | none => exact ⟨_, if_pos ⟨rfl, rfl⟩⟩
        | some blob => exact ⟨blob, by simp⟩
      obtain ⟨blob, hblob⟩ := hstored
      refine Store.does_get (fun v hv => ?_) fun _ _ _ h => by cases h
      rw [hv.1 blob hblob]
      refine Does.ret fun v' hv' shape hshape => ?_
      exact ⟨blob, hv'.1 blob (hv.1 blob hblob), Except.ok.inj hshape⟩

/-- Whatever leaves the meta alone. -/
theorem other_does {α : Type} {p : Task String MetaBlob N α} (hp : p.Only LeavesMeta)
    (last : Option (Event (nodeSig String MetaBlob N))) (w : World String MetaBlob N) :
    Sat node admits (Decides boots) (Decides boots) (fun _ _ => True) p last w := by
  induction p generalizing last w with
  | ret a => exact fun _ _ => trivial
  | call o k ih =>
    obtain ⟨ho, hk⟩ := hp
    intro t _ e _
    refine ⟨decides_of_same ?_, ih _ (hk _) _ _⟩
    change (exec e o t).2.get metaKey = _
    cases o with
    | store o =>
      rcases exec_state e o t with hsame | heffect
      · rw [hsame]
      · rw [heffect]
        cases o with
        | get key => rfl
        | list pre => rfl
        | put key bytes => rw [World.get_put, if_neg fun h => ho h.symm]
        | delete key => rw [World.get_delete, if_neg fun h => ho h.symm]
        | create key bytes => rw [World.get_create, if_neg fun h => ho h.1.symm]
    | ask q => rfl
    | now => rfl
    | note n => rfl

/-- A node boots, or does something that leaves the meta alone. -/
def Boots (boots : ι → Option Nat) (tasks : ι → Try String MetaBlob N (Option Shape)) : Prop :=
  ∀ i, match boots i with
    | some logical => tasks i = agree logical
    | none => (tasks i).Only LeavesMeta

/-- What a task ends with, if it is a booting node's. -/
def Ends (boots : ι → Option Nat) (i : ι) (r : Except Error (Option Shape))
    (w : World String MetaBlob N) : Prop :=
  (boots i).isSome = true → Agreed r w

theorem boots_contracts [DecidableEq ι] {tasks : ι → Try String MetaBlob N (Option Shape)}
    (h : Boots boots tasks) (w : World String MetaBlob N) :
    Contracts node (fun _ _ _ _ => True) (fun _ => Decides boots) (fun _ => Decides boots)
      (Ends boots) ⟨w, fun i => .start (tasks i)⟩ := by
  intro i
  have hi := h i
  cases hboots : boots i with
  | none =>
    rw [hboots] at hi
    refine Sat.conseq (fun _ _ _ _ h => h) (fun _ _ h => h) (fun _ _ h => h) (fun _ _ _ hsome => ?_)
      (other_does hi none w)
    rw [hboots] at hsome
    cases hsome
  | some logical =>
    rw [hboots] at hi
    change Sat _ _ _ _ _ (tasks i) _ _
    rw [hi]
    exact Sat.conseq (fun _ _ _ _ h => h) (fun _ _ h => h) (fun _ _ h => h) (fun _ _ h _ => h)
      (agree_does hboots w none)

end Agreement

/-- Whatever the order of the nodes' operations, and whichever of them fail or lose their answers:
all nodes that come through have the same shape, that of the meta that was there, or else the one
that one of them was configured for. -/
theorem cluster_shape_agreed {ι : Type} [DecidableEq ι] (boots : ι → Option Nat)
    (tasks : ι → Try String MetaBlob N (Option Shape)) (htasks : Boots boots tasks)
    (w : World String MetaBlob N) (moves : List (ι × Env)) :
    let final := (⟨w, fun i => .start (tasks i)⟩ : Config (nodeSig String MetaBlob N) _ ι _).run
      node moves
    ∀ i shape, (boots i).isSome → (final.procs i).prog = .ret (.ok (some shape)) →
      (∀ j shape', (boots j).isSome → (final.procs j).prog = .ret (.ok (some shape')) →
        shape' = shape) ∧
      (∀ blob, w.get metaKey = some blob → blob.shape = some shape) ∧
      (w.get metaKey = none →
        ∃ k logical, boots k = some logical ∧ shape = configured logical) := by
  intro final i shape hi hend
  have hreach : Reach node (fun _ _ _ => True) ⟨w, fun i => .start (tasks i)⟩ final :=
    (Config.guarded_of_forall fun _ _ _ _ => trivial).reach
  have hstart := boots_contracts htasks w
  have hcontracts : Contracts node (fun _ _ _ _ => True) (fun _ => Decides boots)
      (fun _ => Decides boots) (Ends boots) final :=
    hstart.reach (fun _ _ _ _ _ h => h) (fun _ _ _ _ _ _ _ => trivial) hreach
  have hdecides : Decides boots w final.shared :=
    hstart.invariant (fun _ _ _ _ _ h => h) (fun _ _ _ _ _ _ _ => trivial)
      (fun _ _ _ h hI => Trans.trans hI h) (Std.Refl.refl w) hreach
  have hagreed : ∀ j shape, (boots j).isSome = true →
      (final.procs j).prog = .ret (.ok (some shape)) →
        ∃ blob, final.shared.get metaKey = some blob ∧ blob.shape = some shape := by
    intro j shape hj hend
    have hj' := hcontracts j
    rw [hend] at hj'
    exact hj' final.shared (Std.Refl.refl _) hj shape rfl
  obtain ⟨blob, hblob, hshape⟩ := hagreed i shape hi hend
  refine ⟨fun j shape' hj hend' => ?_, fun blob' hblob' => ?_, fun hnone => ?_⟩
  · obtain ⟨blob', hblob', hshape'⟩ := hagreed j shape' hj hend'
    rw [hblob] at hblob'
    cases hblob'
    rw [hshape] at hshape'
    exact (Option.some.inj hshape').symm
  · rw [hdecides.1 blob' hblob'] at hblob
    cases hblob
    exact hshape
  · rcases hdecides.2 hnone with hnone' | ⟨k, logical, hk, hsome⟩
    · rw [hnone'] at hblob
      cases hblob
    · rw [hsome] at hblob
      cases hblob
      exact ⟨k, logical, hk, (Option.some.inj hshape).symm⟩

/-- Two nodes that are configured differently. -/
def twoNodes : Bool → Option Nat
  | false => some 1000
  | true => some 64

def twoTasks (i : Bool) : Try String MetaBlob Unit (Option Shape) :=
  agree ((twoNodes i).getD 0)

/-- The create of the first works, but reports an error. -/
def lostAnswer : List (Bool × Env) := [(false, { fault := .lost }), (true, {}), (true, {})]

def twoBooted : Config (nodeSig String MetaBlob Unit) (World String MetaBlob Unit) Bool
    (Except Error (Option Shape)) :=
  (⟨{}, fun i => .start (twoTasks i)⟩ : Config _ _ _ _).run node lostAnswer

theorem cluster_shape_agreed_lostAnswer :
    (twoBooted.procs false).prog = .ret (.error .unavailable) ∧
      (twoBooted.procs true).prog = .ret (.ok (some (configured 1000))) ∧
        ∃ k logical, twoNodes k = some logical ∧ configured 1000 = configured logical := by
  have htasks : Boots twoNodes twoTasks := by
    intro i
    cases i <;> rfl
  have hend : (twoBooted.procs true).prog = .ret (.ok (some (configured 1000))) := rfl
  have hagreed := cluster_shape_agreed twoNodes twoTasks htasks {} lostAnswer true _ rfl hend
  exact ⟨rfl, hend, hagreed.2.2 rfl⟩

open Takeover (claimGens bootOwned Claimed Outbids claims_foldl)

/-- The exceptions that `start` makes of the kept claims. -/
def exceptions (reads : List (Nat × Checkpoint String)) (logical : Nat) (object : String) :
    Option Nat :=
  (claimGens reads object).bind fun (w, _) =>
    if defaultWorker object logical ≠ w then some w else none

/-- `owner_of` at boot. -/
def ownerOf (reads : List (Nat × Checkpoint String)) (logical : Nat) (object : String) : Nat :=
  (exceptions reads logical object).getD (defaultWorker object logical)

/-- The best of the claims, as a scan of the same checkpoints would rank them. -/
def scanned (reads : List (Nat × Checkpoint String)) (object : String) : Option Claim :=
  (reads.flatMap fun read => read.2.claims object read.1).foldl Claim.consider none

variable {reads reads' : List (Nat × Checkpoint String)} {logical : Nat} {object : String}

/-- The kept claim is the one claim that none outbids. -/
theorem claimGens_eq_some {r : Nat × Nat} : claimGens reads object = some r ↔
    Claimed none reads object r ∧ ∀ c, Claimed none reads object c → ¬ Outbids c r := by
  obtain ⟨hle, hmem⟩ := claims_foldl reads none object
  constructor
  · intro hr
    refine ⟨hmem r hr, fun c hc => ?_⟩
    obtain ⟨r', hr', hout⟩ := hle c hc
    change claimGens reads object = some r' at hr'
    rw [hr] at hr'
    cases hr'
    exact hout
  · rintro ⟨hclaimed, hout⟩
    obtain ⟨r', hr', hout'⟩ := hle r hclaimed
    have hback := hout r' (hmem r' hr')
    have heq : r' = r := by
      unfold Outbids at hout' hback
      exact Prod.ext (by omega) (by omega)
    rw [← heq]
    exact hr'

theorem claimGens_congr (hsame : ∀ read, read ∈ reads ↔ read ∈ reads') :
    claimGens reads object = claimGens reads' object := by
  have hclaimed : ∀ c, Claimed none reads object c ↔ Claimed none reads' object c := by
    intro c
    simp only [Claimed, hsame]
  refine Option.ext fun r => ?_
  rw [claimGens_eq_some, claimGens_eq_some]
  simp only [hclaimed]

theorem ownerOf_eq {w g : Nat} (h : claimGens reads object = some (w, g)) :
    ownerOf reads logical object = w := by
  rw [ownerOf, exceptions, h, Option.bind_some]
  dsimp only
  split_ifs with hw
  · exact Option.getD_some
  · exact not_not.mp hw

theorem bootOwned_eq_some {w g : Nat} :
    bootOwned reads w object = some g ↔ claimGens reads object = some (w, g) := by
  rw [bootOwned]
  cases claimGens reads object with
  | none => simp
  | some r =>
    obtain ⟨w', g'⟩ := r
    dsimp only
    split_ifs with hw
    · subst hw
      simp
    · simp [hw]

/-- What the scan calls owned, with no rival of the same generation, is what boot keeps. -/
theorem claimGens_of_scanned {w g : Nat} (h : scanned reads object = some (.owned w g))
    (hrivals : ∀ read ∈ reads, read.2.owned object = some g → read.1 = w) :
    claimGens reads object = some (w, g) := by
  have hforemost : Foremost ([] ++ reads.flatMap fun read => read.2.claims object read.1)
      (.owned w g) :=
    (foremost_consider _ [] none (fun _ h => by cases h) fun _ => rfl).1 _ h
  rw [List.nil_append] at hforemost
  rw [claimGens_eq_some]
  constructor
  · obtain ⟨⟨w', cp⟩, hread, hclaim⟩ := List.mem_flatMap.mp hforemost.mem
    right
    simp only [Checkpoint.claims, List.mem_append, Option.mem_toList, Option.map_eq_some_iff,
      Claim.owned.injEq, reduceCtorEq, and_false, exists_false, or_false] at hclaim
    obtain ⟨g', howned, rfl, rfl⟩ := hclaim
    exact ⟨cp, hread, howned⟩
  · rintro ⟨w', g'⟩ (hnone | ⟨cp, hread, howned⟩) hout
    · cases hnone
    · have hmem : Claim.owned w' g' ∈ reads.flatMap fun read => read.2.claims object read.1 := by
        refine List.mem_flatMap.mpr ⟨(w', cp), hread, ?_⟩
        simp [Checkpoint.claims, show cp.owned object = some g' from howned]
      have hrank := hforemost.rank_le hmem
      rw [Claim.rank, Claim.rank, Prod.Lex.toLex_le_toLex] at hrank
      rcases hout with hlt | ⟨heq, hlt⟩
      · dsimp only at hlt hrank
        omega
      · dsimp only at heq hlt
        subst heq
        have hw := hrivals (w', cp) hread howned
        dsimp only at hw
        omega

/-- Two nodes that read the same checkpoints place every object alike, in whatever order the store
lists them. An object that is claimed is routed to one of its claimants, whose worker alone boots
owning it, at the highest generation; one that is not goes to its default worker, and none owns it.
Where a scan of the checkpoints finds it owned without a rival, that is its owner here too. -/
theorem boot_placement (hsame : ∀ read, read ∈ reads ↔ read ∈ reads') (logical : Nat)
    (object : String) :
    ownerOf reads' logical object = ownerOf reads logical object ∧
      (∀ w, bootOwned reads' w object = bootOwned reads w object) ∧
      (∀ w, (bootOwned reads w object).isSome → w = ownerOf reads logical object) ∧
      (∀ read ∈ reads, ∀ g, read.2.owned object = some g →
        ∃ top, g ≤ top ∧ bootOwned reads (ownerOf reads logical object) object = some top ∧
          ∃ cp, (ownerOf reads logical object, cp) ∈ reads ∧ cp.owned object = some top) ∧
      ((∀ read ∈ reads, read.2.owned object = none) →
        ownerOf reads logical object = defaultWorker object logical ∧
          ∀ w, bootOwned reads w object = none) ∧
      ∀ w g, scanned reads object = some (.owned w g) →
        (∀ read ∈ reads, read.2.owned object = some g → read.1 = w) →
          ownerOf reads logical object = w ∧ bootOwned reads w object = some g := by
  have hclaims : claimGens reads' object = claimGens reads object := (claimGens_congr hsame).symm
  refine ⟨?_, fun w => ?_, fun w hw => ?_, fun read hread g hg => ?_, fun hnone => ?_,
    fun w g hscan hrivals => ?_⟩
  · rw [ownerOf, ownerOf, exceptions, exceptions, hclaims]
  · rw [bootOwned, bootOwned, hclaims]
  · obtain ⟨g, hg⟩ := Option.isSome_iff_exists.mp hw
    exact (ownerOf_eq (bootOwned_eq_some.mp hg)).symm
  · obtain ⟨hle, hmem⟩ := claims_foldl reads none object
    obtain ⟨⟨w, top⟩, hkept, hout⟩ := hle (read.1, g) (.inr ⟨read.2, hread, hg⟩)
    have howner : ownerOf reads logical object = w := ownerOf_eq hkept
    rw [howner]
    refine ⟨top, ?_, bootOwned_eq_some.mpr hkept, ?_⟩
    · unfold Outbids at hout
      dsimp only at hout
      omega
    · rcases hmem _ hkept with h | ⟨cp, hcp, howned⟩
      · cases h
      · exact ⟨cp, hcp, howned⟩
  · have hempty : claimGens reads object = none := by
      refine Option.eq_none_iff_forall_ne_some.mpr fun r hr => ?_
      rcases (claimGens_eq_some.mp hr).1 with h | ⟨cp, hcp, howned⟩
      · cases h
      · rw [hnone _ hcp] at howned
        cases howned
    refine ⟨?_, fun w => ?_⟩
    · rw [ownerOf, exceptions, hempty]
      rfl
    · rw [bootOwned, hempty]
  · have hkept := claimGens_of_scanned hscan hrivals
    exact ⟨ownerOf_eq hkept, bootOwned_eq_some.mpr hkept⟩

/-- Two workers claim an object: the later handoff was to worker 5. -/
def dualClaim : List (Nat × Checkpoint String) :=
  [(2, ⟨fun o => if o = "room" then some 3 else none, fun _ => none⟩),
    (5, ⟨fun o => if o = "room" then some 4 else none, fun _ => none⟩)]

theorem boot_placement_dualClaim : ownerOf dualClaim.reverse 8 "room" = 5 ∧
    bootOwned dualClaim.reverse 5 "room" = some 4 ∧ bootOwned dualClaim 2 "room" = none := by
  have hsame : ∀ read, read ∈ dualClaim ↔ read ∈ dualClaim.reverse :=
    fun _ => List.mem_reverse.symm
  have hplaced := boot_placement hsame 8 "room"
  have howner : ownerOf dualClaim 8 "room" = 5 := by decide +kernel
  have howned : bootOwned dualClaim 5 "room" = some 4 := by decide +kernel
  refine ⟨hplaced.1.trans howner, (hplaced.2.1 5).trans howned, ?_⟩
  refine Option.not_isSome_iff_eq_none.mp fun hsome => ?_
  have htwo := hplaced.2.2.1 2 hsome
  rw [howner] at htwo
  cases htwo

end Fafo.ClusterBoot
