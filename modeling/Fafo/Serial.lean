import Mathlib.Data.List.Induction
import Fafo.Discipline

/-! The log as a database: boats take effect one at a time, in the order in which they commit. -/
namespace Fafo.Serial

open Interleave

variable {ι τ β δ : Type} [LinearOrder ι]

/-- An image for each object, unless a payload did not apply to it. -/
abbrev Database (ι β : Type) := ι → Except Error β

/-- A boat takes effect on all its objects at once. -/
def Database.unload (M : Images β δ) (items : List (ShipItem ι β δ)) (db : Database ι β) :
    Database ι β :=
  fun id => (db id).bind fun img => fold M img (cargo items id).toList

/-- The boats take effect one after the other, on objects that are empty at first. -/
def serially (M : Images β δ) (jobs : τ → Job ι β δ) (order : List τ) : Database ι β :=
  order.foldl (fun db who => db.unload M (jobs who).items) fun _ => .ok M.empty

/-- What the boats carry to one object, in their order. -/
def cargos (jobs : τ → Job ι β δ) (order : List τ) (id : ι) : List (LogPayload β δ) :=
  order.filterMap fun who => cargo (jobs who).items id

/-- The boats that carry something to the object. -/
def carriers (jobs : τ → Job ι β δ) (order : List τ) (id : ι) : List τ :=
  order.filter fun who => (cargo (jobs who).items id).isSome

section Lists

variable {jobs : τ → Job ι β δ} {order : List τ} {M : Images β δ} {first : τ} {id : ι}

theorem cargos_none (h : cargo (jobs first).items id = none) :
    cargos jobs (first :: order) id = cargos jobs order id := List.filterMap_cons_none h

theorem cargos_some {p : LogPayload β δ} (h : cargo (jobs first).items id = some p) :
    cargos jobs (first :: order) id = p :: cargos jobs order id := List.filterMap_cons_some h

theorem carriers_none (h : cargo (jobs first).items id = none) :
    carriers jobs (first :: order) id = carriers jobs order id :=
  List.filter_cons_of_neg (by simp [h])

theorem carriers_some {p : LogPayload β δ} (h : cargo (jobs first).items id = some p) :
    carriers jobs (first :: order) id = first :: carriers jobs order id :=
  List.filter_cons_of_pos (by simp [h])

theorem carriers_append (order : List τ) (txn : τ) (id : ι) :
    carriers jobs (order ++ [txn]) id = carriers jobs order id ++ carriers jobs [txn] id :=
  List.filter_append ..

theorem length_cargos (order : List τ) (id : ι) :
    (cargos jobs order id).length = (carriers jobs order id).length := by
  induction order with
  | nil => rfl
  | cons first order ih =>
    cases hcargo : cargo (jobs first).items id with
    | none => rw [cargos_none hcargo, carriers_none hcargo, ih]
    | some p =>
      rw [cargos_some hcargo, carriers_some hcargo, List.length_cons, List.length_cons, ih]

/-- The payload in a slot is what the boat there carries. -/
theorem cargos_getElem {order : List τ} {j : Nat} {who : τ} {p : LogPayload β δ}
    (hj : (carriers jobs order id)[j]? = some who) (hp : cargo (jobs who).items id = some p) :
    (cargos jobs order id)[j]? = some p := by
  induction order generalizing j with
  | nil => cases hj
  | cons first order ih =>
    cases hcargo : cargo (jobs first).items id with
    | none =>
      rw [carriers_none hcargo] at hj
      rw [cargos_none hcargo]
      exact ih hj
    | some q =>
      rw [carriers_some hcargo] at hj
      rw [cargos_some hcargo]
      cases j with
      | zero =>
        cases hj
        exact hcargo.symm.trans hp
      | succ j => exact ih hj

/-- What the first boats carry to an object. -/
theorem exists_take_cargos (order : List τ) {n : Nat} (hn : n ≤ (cargos jobs order id).length) :
    ∃ k, cargos jobs (order.take k) id = (cargos jobs order id).take n := by
  induction order generalizing n with
  | nil => exact ⟨0, List.take_nil.symm⟩
  | cons first order ih =>
    cases hcargo : cargo (jobs first).items id with
    | none =>
      rw [cargos_none hcargo] at hn ⊢
      obtain ⟨k, hk⟩ := ih hn
      exact ⟨k + 1, by rw [List.take_succ_cons, cargos_none hcargo, hk]⟩
    | some p =>
      rw [cargos_some hcargo] at hn ⊢
      cases n with
      | zero => exact ⟨0, rfl⟩
      | succ n =>
        obtain ⟨k, hk⟩ := ih (Nat.le_of_succ_le_succ hn)
        exact ⟨k + 1, by rw [List.take_succ_cons, cargos_some hcargo, hk, List.take_succ_cons]⟩

/-- On one object, the boats that carry nothing to it do not count. -/
theorem serially_eq (order : List τ) (id : ι) :
    serially M jobs order id = fold M M.empty (cargos jobs order id) := by
  induction order using List.reverseRecOn with
  | nil => rfl
  | append_singleton order who ih =>
    have hlast : cargos jobs (order ++ [who]) id =
        cargos jobs order id ++ (cargo (jobs who).items id).toList := by
      rw [cargos, List.filterMap_append, ← cargos]
      cases hcargo : cargo (jobs who).items id <;> simp [hcargo]
    calc serially M jobs (order ++ [who]) id
        = (serially M jobs order id).bind fun img =>
            fold M img (cargo (jobs who).items id).toList := by
          rw [serially, List.foldl_concat]
          rfl
      _ = fold M M.empty (cargos jobs (order ++ [who]) id) := by rw [ih, hlast, fold_append]

end Lists

section Order

variable [DecidableEq τ] {jobs : τ → Job ι β δ} {order : List τ} {w w' : LogWorld ι τ β δ}
  {M : Images β δ} {watched : τ → List ι}

/-- Every object's log has the boats that carry something to it, in the order of their commits. -/
structure Ordered (jobs : τ → Job ι β δ) (order : List τ) (w : LogWorld ι τ β δ) : Prop where
  mem : ∀ who, who ∈ order ↔ verdict w who = some true
  nodup : order.Nodup
  slots : ∀ id j who, (carriers jobs order id)[j]? = some who → Holds w id (j + 1) who

/-- A committed entry is in the slot that the order gives it. -/
theorem Ordered.slot_of_holds (h : Ordered jobs order w) (hs : Sound M watched w)
    (hloaded : ∀ id seq e, entryAt w id seq = some e →
      cargo (jobs e.txn).items id = some e.payload) {id : ι} {s : Nat} {who : τ}
    (hholds : Holds w id s who) (hv : verdict w who = some true) :
    ∃ j, s = j + 1 ∧ (carriers jobs order id)[j]? = some who := by
  have hmem : who ∈ carriers jobs order id := by
    refine List.mem_filter.mpr ⟨(h.mem who).mpr hv, ?_⟩
    obtain ⟨e, he, rfl⟩ := hholds
    rw [hloaded id s e he]
    rfl
  obtain ⟨j, hj⟩ := List.mem_iff_getElem?.mp hmem
  exact ⟨j, hs.single id s (j + 1) who hholds (h.slots id j who hj), hj⟩

theorem ordered_empty : Ordered jobs [] ({} : LogWorld ι τ β δ) where
  mem who := by
    constructor
    · exact fun h => absurd h List.not_mem_nil
    · intro h
      cases h
  nodup := List.nodup_nil
  slots _ _ _ h := by cases h

/-- A boat that commits has the first slot of each object's log above those that committed before.
-/
theorem Ordered.next_slot (h : Ordered jobs order w) (hs : Sound M watched w)
    (hs' : Sound M watched w') (hgrows : Grows w w')
    (hloaded : ∀ id seq e, entryAt w id seq = some e →
      cargo (jobs e.txn).items id = some e.payload) {txn : τ} (hnone : verdict w txn = none)
    (hothers : ∀ other, verdict w' other = some true →
      verdict w other = some true ∨ other = txn) {id : ι} {seq : Nat}
    (hholds : Holds w' id seq txn) : seq = (carriers jobs order id).length + 1 := by
  obtain ⟨e, he, hetxn⟩ := hholds
  obtain ⟨n, rfl, hto⟩ := hs'.stacked id seq e he
  -- the slots below are those of the boats before
  have hle : n ≤ (carriers jobs order id).length := by
    rcases Nat.eq_zero_or_pos n with rfl | hpos
    · exact Nat.zero_le _
    obtain ⟨x, hx, hxv⟩ := hto.entry hpos le_rfl
    have hxw : verdict w x.txn = some true := by
      rcases hothers x.txn hxv with hxw | hxnew
      · exact hxw
      · have hsame := hs'.single id n (n + 1) txn ⟨x, hx, hxnew⟩ ⟨e, he, hetxn⟩
        omega
    obtain ⟨i, rfl, hi⟩ :=
      h.slot_of_holds hs hloaded ⟨x, hgrows.closed id n x hx hxw, rfl⟩ hxw
    exact (List.getElem?_eq_some_iff.mp hi).1
  -- and this one was free until now
  have hge : ¬ n < (carriers jobs order id).length := by
    intro hlt
    obtain ⟨x, hx, hxtxn⟩ := h.slots id n _ (List.getElem?_eq_getElem hlt)
    have hxw : verdict w x.txn = some true := by
      rw [hxtxn]
      exact (h.mem _).mp (List.mem_filter.mp (List.getElem_mem hlt)).1
    have hsame := Holds.unique ⟨e, he, hetxn⟩ ⟨x, hgrows.settled id _ x hx hxw, rfl⟩
    rw [hsame, hnone] at hxw
    cases hxw
  omega

/-- One step, which commits at most one boat. -/
theorem ordered_step (h : Ordered jobs order w) (hs : Sound M watched w) (hs' : Sound M watched w')
    (hgrows : Grows w w')
    (hloaded : ∀ id seq e, entryAt w id seq = some e →
      cargo (jobs e.txn).items id = some e.payload)
    (hnoted : ∀ who, verdict w' who = some true →
      ∀ id, (cargo (jobs who).items id).isSome → Noted w' who id) {commit : Option τ}
    (hverdict : ∀ txn, verdict w' txn = some true ↔
      verdict w txn = some true ∨ commit = some txn)
    (hnew : ∀ txn, commit = some txn → verdict w txn = none) :
    Ordered jobs (order ++ commit.toList) w' := by
  have hold : ∀ id j who, (carriers jobs order id)[j]? = some who → Holds w' id (j + 1) who := by
    intro id j who hj
    obtain ⟨e, he, rfl⟩ := h.slots id j who hj
    have hmem := (List.mem_filter.mp (List.mem_of_getElem? hj)).1
    exact ⟨e, hgrows.settled id _ e he ((h.mem e.txn).mp hmem), rfl⟩
  cases commit with
  | none =>
    refine ⟨fun who => ?_, ?_, ?_⟩
    · simp [hverdict, h.mem]
    · simpa using h.nodup
    · simpa using hold
  | some txn =>
    have hnone := hnew txn rfl
    have hfresh : txn ∉ order := by
      rw [h.mem, hnone]
      exact fun heq => by cases heq
    have hv' : verdict w' txn = some true := (hverdict txn).mpr (.inr rfl)
    have hothers : ∀ other, verdict w' other = some true →
        verdict w other = some true ∨ other = txn := fun other hv =>
      ((hverdict other).mp hv).imp_right fun heq => (Option.some.inj heq).symm
    refine ⟨fun who => ?_, ?_, fun id j who hj => ?_⟩
    · rw [hverdict, Option.toList_some, List.mem_append, List.mem_singleton, h.mem,
        Option.some_inj, eq_comm (a := txn)]
    · refine List.nodup_append.mpr ⟨h.nodup, List.nodup_singleton _, ?_⟩
      rintro a ha b hb rfl
      rw [Option.toList_some, List.mem_singleton] at hb
      exact hfresh (hb ▸ ha)
    · rw [Option.toList_some, carriers_append] at hj
      by_cases hlt : j < (carriers jobs order id).length
      · rw [List.getElem?_append_left hlt] at hj
        exact hold id j who hj
      · rw [List.getElem?_append_right (by omega)] at hj
        cases hcargo : cargo (jobs txn).items id with
        | none =>
          rw [carriers_none hcargo] at hj
          cases hj
        | some p =>
          rw [carriers_some hcargo] at hj
          obtain ⟨hj0, rfl⟩ : j - (carriers jobs order id).length = 0 ∧ txn = who := by
            simpa [carriers, List.getElem?_singleton] using hj
          obtain ⟨seq, hnote⟩ := hnoted txn hv' id (by rw [hcargo]; rfl)
          have hholds := hs'.recorded txn id seq hnote hv'
          have hseq := h.next_slot hs hs' hgrows hloaded hnone hothers hholds
          obtain rfl : seq = j + 1 := by omega
          exact hholds

theorem Ordered.committedTo_iff (h : Ordered jobs order w) (hs : Sound M watched w)
    (hloaded : ∀ id seq e, entryAt w id seq = some e →
      cargo (jobs e.txn).items id = some e.payload) {id : ι} {n : Nat} :
    CommittedTo w id n ↔ n ≤ (cargos jobs order id).length := by
  rw [length_cargos]
  constructor
  · intro hto
    rcases Nat.eq_zero_or_pos n with rfl | hpos
    · exact Nat.zero_le _
    obtain ⟨e, he, hv⟩ := hto.entry hpos le_rfl
    obtain ⟨j, rfl, hj⟩ := h.slot_of_holds hs hloaded ⟨e, he, rfl⟩ hv
    exact (List.getElem?_eq_some_iff.mp hj).1
  · intro hle
    refine ⟨(cargos jobs order id).take n, ?_, fun j p hp => ?_⟩
    · rw [List.length_take, length_cargos]
      omega
    · rw [List.getElem?_take] at hp
      split at hp
      swap
      · cases hp
      next hjn =>
      have hlt : j < (carriers jobs order id).length := by omega
      have hj := List.getElem?_eq_getElem hlt
      obtain ⟨e, he, htxn⟩ := h.slots id j _ hj
      have hcargo := hloaded id _ e he
      rw [htxn] at hcargo
      refine ⟨e, he, ?_, ?_⟩
      · rw [htxn]
        exact (h.mem _).mp (List.mem_filter.mp (List.getElem_mem hlt)).1
      · rw [cargos_getElem hj hcargo] at hp
        exact Option.some.inj hp

/-- The image of a committed prefix is what the first boats have made of the object. -/
theorem Ordered.image (h : Ordered jobs order w) (hs : Sound M watched w)
    (hloaded : ∀ id seq e, entryAt w id seq = some e →
      cargo (jobs e.txn).items id = some e.payload) {id : ι} {img : β} {n : Nat}
    (himg : ImageOf M w id img n) :
    n ≤ (cargos jobs order id).length ∧
      fold M M.empty ((cargos jobs order id).take n) = .ok img := by
  have hle := (h.committedTo_iff hs hloaded).mp himg.committedTo
  obtain ⟨ps, hlen, hps, hfold⟩ := himg
  refine ⟨hle, ?_⟩
  have hsame : ps = (cargos jobs order id).take n := by
    refine List.ext_getElem? fun j => ?_
    by_cases hj : j < n
    · have hp := List.getElem?_eq_getElem (hlen.symm ▸ hj : j < ps.length)
      obtain ⟨e, he, hv, hpayload⟩ := hps j _ hp
      obtain ⟨i, hi, hslot⟩ := h.slot_of_holds hs hloaded ⟨e, he, rfl⟩ hv
      obtain rfl : j = i := by omega
      rw [List.getElem?_take_of_lt hj, cargos_getElem hslot (hloaded id _ e he), hp, hpayload]
    · rw [List.getElem?_eq_none (by omega),
        List.getElem?_eq_none (by rw [List.length_take]; omega)]
  rw [← hsame]
  exact hfold

end Order

section Runs

variable [DecidableEq τ]

/-- The boat whose outcome the step puts down as committed. -/
def commitOf (c : JobConfig ι τ β δ) (who : τ) : Option τ :=
  match (c.procs who).prog with
  | .call o _ => commitsTxn c.shared o
  | .ret _ => none

/-- The boats that commit in the run, in that order. -/
def commits : JobConfig ι τ β δ → List (τ × Env) → List τ
  | _, [] => []
  | c, m :: moves => (commitOf c m.1).toList ++ commits (c.step reliable m.1 m.2) moves

variable {jobs : τ → Job ι β δ}

theorem commitOf_step {c : JobConfig ι τ β δ} (h : Disciplined jobs c) (who : τ) (e : Env)
    (hgrows : Grows c.shared (c.step reliable who e).shared) (txn : τ) :
    verdict (c.step reliable who e).shared txn = some true ↔
      verdict c.shared txn = some true ∨ commitOf c who = some txn := by
  rw [Config.step_shared] at hgrows ⊢
  obtain ⟨need, horderly, _⟩ := h.tasks who
  unfold commitOf
  cases hp : (c.procs who).prog with
  | ret a => simp [Prog.move]
  | call o k =>
    rw [hp] at hgrows horderly
    constructor
    · exact verdict_exec horderly.1 e
    · rintro (hold | hcommit)
      · exact hgrows.decided txn true hold
      · obtain ⟨rfl, hnone⟩ := commitsTxn_eq_some hcommit
        have hdecide := verdict_decide c.shared txn txn true
        rw [if_pos ⟨rfl, hnone⟩] at hdecide
        exact hdecide

theorem serial_run (Y : Yard β δ) {c : JobConfig ι τ β δ} {order : List τ}
    (hreach : Reach reliable (SteadyStep fun _ => []) (startJobs Y jobs) c)
    (hdisc : Disciplined jobs c) (h : Ordered jobs order c.shared) {moves : List (τ × Env)}
    (hmoves : c.Guarded reliable (SteadyStep fun _ => []) moves) :
    Ordered jobs (order ++ commits c moves) (c.run reliable moves).shared ∧
      Disciplined jobs (c.run reliable moves) := by
  induction moves generalizing c order with
  | nil => exact ⟨by simpa [commits, Config.run] using h, hdisc⟩
  | cons m moves ih =>
    obtain ⟨hm, hrest⟩ := hmoves
    have hone : Reach reliable (SteadyStep fun _ => []) c (c.step reliable m.1 m.2) :=
      Relation.ReflTransGen.single ⟨m.1, m.2, hm, rfl⟩
    have hreach' := Relation.ReflTransGen.trans hreach hone
    have hgrows := grows_reachable Y _ jobs hreach hone
    have hdisc' := disciplined_step hdisc m.1 m.2
    have hstep := ordered_step h (sound_reachable Y _ jobs hreach)
      (sound_reachable Y _ jobs hreach') hgrows hdisc.loaded hdisc'.noted
      (commitOf_step hdisc m.1 m.2 hgrows) fun txn hcommit => ?_
    · obtain ⟨hordered, hlast⟩ := ih hreach' hdisc' hstep hrest
      refine ⟨?_, hlast⟩
      rw [commits, ← List.append_assoc]
      exact hordered
    · unfold commitOf at hcommit
      split at hcommit
      · exact (commitsTxn_eq_some hcommit).2
      · cases hcommit

/-- Boats, compactions and reads, in any order of their single store operations: while every delete
hits what was read, the log is that of a database on which the boats take effect one after the
other, each on all its objects at once, in the order of their commits. -/
theorem boats_serialize (Y : Yard β δ) (jobs : τ → Job ι β δ)
    (hdistinct : ∀ who, ((jobs who).items.map (·.object)).Nodup) (moves : List (τ × Env))
    (hmoves : (startJobs Y jobs).Guarded reliable AtomicDeletes moves) :
    let w := ((startJobs Y jobs).run reliable moves).shared
    let order := commits (startJobs Y jobs) moves
    order.Nodup ∧ (∀ who, who ∈ order ↔ verdict w who = some true) ∧
      (∀ id n, CommittedTo w id n ↔ n ≤ (cargos jobs order id).length) ∧
      (∀ id j who, (carriers jobs order id)[j]? = some who →
        ∃ e, entryAt w id (j + 1) = some e ∧ e.txn = who ∧
          (cargos jobs order id)[j]? = some e.payload) ∧
      (∀ who ∈ order, ∀ id p, cargo (jobs who).items id = some p →
        ∃ seq e, entryAt w id seq = some e ∧ e.txn = who ∧ e.payload = p ∧
          CommittedTo w id seq) ∧
      (∀ id img, ImageOf Y.images w id img (cargos jobs order id).length →
        serially Y.images jobs order id = .ok img) ∧
      (∀ id img n, ImageOf Y.images w id img n →
        ∃ k, serially Y.images jobs (order.take k) id = .ok img) ∧
      ∀ r conns, Note.queried r conns ∈ w.notes → ∀ id img n,
        conns.lookup id = some (img, n) →
          ∃ k, serially Y.images jobs (order.take k) id = .ok img := by
  intro w order
  have hsteady := hmoves.mono fun _ _ _ => AtomicDeletes.steadyStep
  obtain ⟨hordered, hdisc⟩ :=
    serial_run Y .refl (disciplined_start Y hdistinct) ordered_empty hsteady
  rw [List.nil_append] at hordered
  have hsound := sound_reachable Y _ jobs hsteady.reach
  have hprefix : ∀ id img n, ImageOf Y.images w id img n →
      ∃ k, serially Y.images jobs (order.take k) id = .ok img := by
    intro id img n himg
    obtain ⟨hle, hfold⟩ := hordered.image hsound hdisc.loaded himg
    obtain ⟨k, hk⟩ := exists_take_cargos order hle
    exact ⟨k, by rw [serially_eq, hk]; exact hfold⟩
  have hslots : ∀ id j who, (carriers jobs order id)[j]? = some who →
      ∃ e, entryAt w id (j + 1) = some e ∧ e.txn = who ∧
        (cargos jobs order id)[j]? = some e.payload := by
    intro id j who hj
    obtain ⟨e, he, rfl⟩ := hordered.slots id j who hj
    exact ⟨e, he, rfl, cargos_getElem hj (hdisc.loaded id _ e he)⟩
  refine ⟨hordered.nodup, hordered.mem, fun id n => hordered.committedTo_iff hsound hdisc.loaded,
    hslots, fun who hwho id p hp => ?_, fun id img himg => ?_, hprefix,
    fun r conns hq id img n hl => ?_⟩
  · have hcarries : who ∈ carriers jobs order id := List.mem_filter.mpr ⟨hwho, by rw [hp]; rfl⟩
    obtain ⟨j, hj⟩ := List.mem_iff_getElem?.mp hcarries
    obtain ⟨e, he, rfl, hpayload⟩ := hslots id j who hj
    obtain ⟨hlt, _⟩ := List.getElem?_eq_some_iff.mp hpayload
    have hcargo := hdisc.loaded id _ e he
    refine ⟨j + 1, e, he, rfl, Option.some.inj (hcargo.symm.trans hp), ?_⟩
    exact (hordered.committedTo_iff hsound hdisc.loaded).mpr hlt
  · obtain ⟨_, hfold⟩ := hordered.image hsound hdisc.loaded himg
    rw [List.take_length] at hfold
    rw [serially_eq]
    exact hfold
  · exact hprefix id img n ((hsound.cuts r conns hq).image id img n hl)

/-- Boat 0 builds on boat 1's entry for object 0. -/
def twoBoats : Nat → Job Nat Nat Nat
  | 0 => .ship [⟨0, .delta 3, 1⟩, ⟨1, .delta 3, 0⟩]
  | 1 => .ship [⟨0, .delta 2, 0⟩]
  | _ => .read [0, 1]

/-- Boat 1 commits, and then boat 0. -/
def inTurn : List (Nat × Env) := gateMoves 1 0 ++ turns 1 6 ++ gateMoves 0 0 ++ turns 0 13

theorem boats_serialize_inTurn :
    commits (startJobs counterYard twoBoats) inTurn = [1, 0] ∧
      serially counterYard.images twoBoats (commits (startJobs counterYard twoBoats) inTurn) 0 =
        .ok 5 ∧
      ∃ seq e, entryAt ((startJobs counterYard twoBoats).run reliable inTurn).shared 1 seq =
        some e ∧ e.txn = 0 ∧ e.payload = .delta 3 ∧
        CommittedTo ((startJobs counterYard twoBoats).run reliable inTurn).shared 1 seq := by
  have hdistinct : ∀ who, ((twoBoats who).items.map (·.object)).Nodup := by
    intro who
    rcases who with _ | _ | who
    · exact List.nodup_cons.mpr ⟨by decide, List.nodup_singleton _⟩
    · exact List.nodup_singleton _
    · exact List.nodup_nil
  have hguarded : (startJobs counterYard twoBoats).Guarded reliable AtomicDeletes inTurn := by
    iterate 25 refine ⟨trivial, ?_⟩
    trivial
  obtain ⟨_, _, _, _, hcarried, hwhole, _⟩ :=
    boats_serialize counterYard twoBoats hdistinct inTurn hguarded
  refine ⟨by decide, hwhole 0 5 ⟨[.delta 2, .delta 3], by decide, ?_, rfl⟩,
    hcarried 0 (by decide) 1 (.delta 3) rfl⟩
  rintro (_ | _ | j) p hj
  · cases hj
    exact ⟨_, rfl, rfl, rfl⟩
  · cases hj
    exact ⟨_, rfl, rfl, rfl⟩
  · cases hj

end Runs

end Fafo.Serial
