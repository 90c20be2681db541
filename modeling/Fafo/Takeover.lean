import Fafo.Claims
import Fafo.Library.Runs

/-! A node that takes a worker over: what its boot reads of the checkpoints, and what the holder
before it still writes. -/
namespace Fafo.Takeover

variable {ι : Type}

/-- The later handoff is the owner; equal generations go to the lower worker. -/
def prefer (best : Option (Nat × Nat)) (worker generation : Nat) : Option (Nat × Nat) :=
  match best with
  | some (w, g) =>
    if g < generation ∨ generation = g ∧ worker < w then some (worker, generation) else some (w, g)
  | none => some (worker, generation)

/-- The claim on an object that is kept, of the checkpoints in the order they were read. -/
def claimGens (reads : List (Nat × Checkpoint ι)) (object : ι) : Option (Nat × Nat) :=
  reads.foldl (fun best read =>
    match read.2.owned object with
    | some generation => prefer best read.1 generation
    | none => best) none

def bootOwned (reads : List (Nat × Checkpoint ι)) (worker : Nat) (object : ι) : Option Nat :=
  match claimGens reads object with
  | some (w, generation) => if w = worker then some generation else none
  | none => none

def bootTransit (reads : List (Nat × Checkpoint ι)) (worker : Nat) : ι → Option (Nat × Nat) :=
  match (reads.filter fun read => read.1 = worker).getLast? with
  | some read => read.2.transit
  | none => fun _ => none

/-- What a worker's task starts with. -/
def spawned (reads : List (Nat × Checkpoint ι)) (worker : Nat) : Checkpoint ι :=
  ⟨bootOwned reads worker, bootTransit reads worker⟩

/-- How far `start` has come. -/
inductive Phase (ι : Type) where
  | listing
  | loading (todo : List WorkerKey) (reads : List (Nat × Checkpoint ι))
  | claimed (reads : List (Nat × Checkpoint ι))
  | failed

/-- `last` is the checkpoint that the holder wrote last while it held the lease. -/
structure State (ι : Type) where
  store : Blobs WorkerKey (WorkerBlob ι)
  last : Option (Checkpoint ι)
  held : Bool := true
  phase : Phase ι := .listing
  spawned : Option (Checkpoint ι) := none

/-- One step. The holder checkpoints what it likes, takes and grants included; so do others, under
their own keys. `lose` is its tombstone, or a third node's epoch. -/
inductive Move (ι : Type) where
  | checkpoint (cp : Checkpoint ι) (fault : Fault)
  | write (key : WorkerKey) (blob : WorkerBlob ι)
  | lose
  | list (fault : Fault)
  | read (fault : Fault)
  | claim
  | spawn

/-- `start` reads the next listed checkpoint. A read that fails fails the boot; names and bytes that
do not parse are passed over. -/
def State.readNext (s : State ι) (fault : Fault) : State ι :=
  match s.phase with
  | .loading (key :: todo) reads =>
    match key with
    | .other _ => { s with phase := .loading todo reads }
    | .checkpoint w =>
      if fault ≠ .none then { s with phase := .failed } else
      match s.store.lookup (.checkpoint w) with
      | some (.checkpoint cp) => { s with phase := .loading todo (reads ++ [(w, cp)]) }
      | _ => { s with phase := .loading todo reads }
  | _ => s

def State.step (worker : Nat) (s : State ι) : Move ι → State ι
  | .checkpoint cp fault =>
    if fault = .failed then s else
      { s with
        store := s.store.insert (.checkpoint worker) (.checkpoint cp)
        last := if s.held then some cp else s.last }
  | .write key blob =>
    if key = .checkpoint worker then s else { s with store := s.store.insert key blob }
  | .lose => { s with held := false }
  | .list fault =>
    match s.phase with
    | .listing =>
      if fault = .none then { s with phase := .loading s.store.keys [] }
      else { s with phase := .failed }
    | _ => s
  | .read fault => s.readNext fault
  | .claim =>
    match s.phase with
    | .loading [] reads => { s with phase := .claimed reads, held := false }
    | _ => s
  | .spawn =>
    match s.phase, s.spawned with
    | .claimed reads, none => { s with spawned := some (Takeover.spawned reads worker) }
    | _, _ => s

/-- The worker starts from the holder's last checkpoint, or from nothing. -/
def Inherits (s : State ι) : Prop :=
  ∀ cp, s.spawned = some cp → cp = s.last.getD ⟨fun _ => none, fun _ => none⟩

/-- `start` has yet to read the worker's checkpoint. -/
def Unread (worker : Nat) : Phase ι → Prop
  | .listing => True
  | .loading todo _ => .checkpoint worker ∈ todo
  | .claimed _ | .failed => False

/-- No other checkpoint that was read has a better claim on what the worker's own one owns. -/
def Unrivalled (worker : Nat) (reads : List (Nat × Checkpoint ι)) : Prop :=
  ∀ cp, (worker, cp) ∈ reads → ∀ o g, cp.owned o = some g → ∀ v cp', (v, cp') ∈ reads →
    ∀ g', cp'.owned o = some g' → g' < g ∨ g' = g ∧ worker ≤ v

/-- The holder writes no other checkpoint between `start`'s reading one and the loss of the lease,
and none after the loss before that; and when the worker is spawned its claims are unrivalled. -/
def Settled (worker : Nat) (s : State ι) : Move ι → Prop
  | .checkpoint cp fault =>
    fault = .failed ∨ (s.held ↔ Unread worker s.phase) ∨ s.last = some cp
  | .spawn => ∀ reads, s.phase = .claimed reads → Unrivalled worker reads
  | _ => True

/-- A claim on the object: the one kept so far, or one among the reads. -/
def Claimed (best : Option (Nat × Nat)) (reads : List (Nat × Checkpoint ι)) (o : ι)
    (c : Nat × Nat) : Prop :=
  best = some c ∨ ∃ cp, (c.1, cp) ∈ reads ∧ cp.owned o = some c.2

def Outbids (a b : Nat × Nat) : Prop := b.2 < a.2 ∨ a.2 = b.2 ∧ a.1 < b.1

theorem not_outbids_trans {a b c : Nat × Nat} (hab : ¬ Outbids a b) (hbc : ¬ Outbids b c) :
    ¬ Outbids a c := by
  unfold Outbids at *
  omega

theorem prefer_spec (best : Option (Nat × Nat)) (w g : Nat) :
    ∃ r, prefer best w g = some r ∧ (r = (w, g) ∨ best = some r) ∧ ¬ Outbids (w, g) r ∧
      ∀ c, best = some c → ¬ Outbids c r := by
  cases best with
  | none => exact ⟨(w, g), rfl, .inl rfl, by simp [Outbids], nofun⟩
  | some b =>
    obtain ⟨v, h⟩ := b
    by_cases hlt : h < g ∨ g = h ∧ w < v
    · refine ⟨(w, g), if_pos hlt, .inl rfl, by simp [Outbids], ?_⟩
      rintro _ ⟨⟩
      unfold Outbids
      dsimp only
      omega
    · refine ⟨(v, h), if_neg hlt, .inr rfl, hlt, ?_⟩
      rintro _ ⟨⟩
      simp [Outbids]

/-- The claim that is kept is one of the claims, and none outbids it. -/
theorem claims_foldl (reads : List (Nat × Checkpoint ι)) (best : Option (Nat × Nat)) (o : ι) :
    (∀ c, Claimed best reads o c → ∃ r, reads.foldl (fun best read =>
      match read.2.owned o with
      | some generation => prefer best read.1 generation
      | none => best) best = some r ∧ ¬ Outbids c r) ∧
    ∀ r, reads.foldl (fun best read =>
      match read.2.owned o with
      | some generation => prefer best read.1 generation
      | none => best) best = some r → Claimed best reads o r := by
  induction reads generalizing best with
  | nil =>
    refine ⟨?_, fun r hr => .inl hr⟩
    rintro c (hc | ⟨_, hmem, _⟩)
    · exact ⟨c, hc, by simp [Outbids]⟩
    · cases hmem
  | cons read reads ih =>
    obtain ⟨w, cp⟩ := read
    cases howned : cp.owned o with
    | none =>
      obtain ⟨ihle, ihmem⟩ := ih best
      simp only [List.foldl_cons, howned]
      refine ⟨fun c hc => ihle c ?_, fun r hr => ?_⟩
      · rcases hc with hc | ⟨cp', hmem, hcp'⟩
        · exact .inl hc
        · rcases List.mem_cons.mp hmem with heq | hmem
          · cases heq
            rw [howned] at hcp'
            cases hcp'
          · exact .inr ⟨cp', hmem, hcp'⟩
      · exact (ihmem r hr).imp_right fun ⟨cp', hmem, hcp'⟩ => ⟨cp', .tail _ hmem, hcp'⟩
    | some g =>
      obtain ⟨b, hb, hfrom, hnew, hold⟩ := prefer_spec best w g
      obtain ⟨ihle, ihmem⟩ := ih (prefer best w g)
      simp only [List.foldl_cons, howned]
      have hstep : ∀ c, ¬ Outbids c b → ∃ r, reads.foldl (fun best read =>
          match read.2.owned o with
          | some generation => prefer best read.1 generation
          | none => best) (prefer best w g) = some r ∧ ¬ Outbids c r := by
        intro c hc
        obtain ⟨r, hr, hbr⟩ := ihle b (.inl hb)
        exact ⟨r, hr, not_outbids_trans hc hbr⟩
      refine ⟨fun c hc => ?_, fun r hr => ?_⟩
      · rcases hc with hc | ⟨cp', hmem, hcp'⟩
        · exact hstep c (hold c hc)
        · rcases List.mem_cons.mp hmem with heq | hmem
          · cases heq
            obtain rfl : c.2 = g := Option.some.inj (hcp'.symm.trans howned)
            exact hstep c hnew
          · exact ihle c (.inr ⟨cp', hmem, hcp'⟩)
      · rcases ihmem r hr with heq | ⟨cp', hmem, hcp'⟩
        · obtain rfl : b = r := Option.some.inj (hb.symm.trans heq)
          rcases hfrom with rfl | hbest
          · exact .inr ⟨cp, List.mem_cons_self, howned⟩
          · exact .inl hbest
        · exact .inr ⟨cp', .tail _ hmem, hcp'⟩

variable {worker : Nat} {reads : List (Nat × Checkpoint ι)} {last : Option (Checkpoint ι)}

/-- Unrivalled claims are all kept, and nothing else is. -/
theorem bootOwned_eq (hreads : ∀ cp, (worker, cp) ∈ reads ↔ last = some cp)
    (hrivals : Unrivalled worker reads) (o : ι) :
    bootOwned reads worker o = last.bind fun cp => cp.owned o := by
  obtain ⟨hle, hmem⟩ := claims_foldl reads none o
  have hkept : ∀ g, claimGens reads o = some (worker, g) →
      (last.bind fun cp => cp.owned o) = some g := by
    intro g hg
    rcases hmem _ hg with heq | ⟨cp, hcp, howned⟩
    · cases heq
    · rw [(hreads cp).mp hcp]
      exact howned
  cases howned : last.bind fun cp => cp.owned o with
  | none =>
    unfold bootOwned
    split
    next w g hg =>
      split_ifs with hw
      · rw [hw] at hg
        rw [hkept g hg] at howned
        cases howned
      · rfl
    · rfl
  | some g =>
    obtain ⟨cp, hlast, hcp⟩ := Option.bind_eq_some_iff.mp howned
    have hcpmem := (hreads cp).mpr hlast
    obtain ⟨⟨v, g'⟩, hr, hout⟩ := hle (worker, g) (.inr ⟨cp, hcpmem, hcp⟩)
    have hv : v = worker := by
      rcases hmem _ hr with heq | ⟨cp', hcp'mem, hcp'⟩
      · cases heq
      · have := hrivals cp hcpmem o g hcp v cp' hcp'mem g' hcp'
        unfold Outbids at hout
        dsimp only at hout
        omega
    subst hv
    have hg' := (hkept g' hr).symm.trans howned
    cases hg'
    unfold bootOwned claimGens
    rw [hr]
    exact if_pos rfl

theorem bootTransit_eq (hreads : ∀ cp, (worker, cp) ∈ reads ↔ last = some cp) :
    bootTransit reads worker = (last.getD ⟨fun _ => none, fun _ => none⟩).transit := by
  unfold bootTransit
  split
  next read hread =>
    obtain ⟨hmem, hw⟩ := List.mem_filter.mp (List.mem_of_getLast? hread)
    obtain ⟨w, cp⟩ := read
    obtain rfl : w = worker := by simpa using hw
    rw [(hreads cp).mp hmem]
    rfl
  next hnone =>
    rw [List.getLast?_eq_none_iff] at hnone
    cases hlast : last with
    | none => rfl
    | some cp =>
      have hmem : (worker, cp) ∈ reads.filter fun read => read.1 = worker :=
        List.mem_filter.mpr ⟨(hreads cp).mpr hlast, by simp⟩
      rw [hnone] at hmem
      cases hmem

/-- What a task starts with is the last checkpoint, if that is what was read. -/
theorem spawned_eq (hreads : ∀ cp, (worker, cp) ∈ reads ↔ last = some cp)
    (hrivals : Unrivalled worker reads) :
    spawned reads worker = last.getD ⟨fun _ => none, fun _ => none⟩ := by
  have howned : bootOwned reads worker = (last.getD ⟨fun _ => none, fun _ => none⟩).owned := by
    funext o
    rw [bootOwned_eq hreads hrivals]
    cases last <;> rfl
  rw [spawned, howned, bootTransit_eq hreads]

/-- What the store, the boot and the new task know of the holder's last checkpoint. -/
structure Tracks (worker : Nat) (s : State ι) : Prop where
  unread : Unread worker s.phase →
    s.store.lookup (.checkpoint worker) = s.last.map .checkpoint
  loading : ∀ todo reads, s.phase = .loading todo reads → todo.Nodup ∧
    (.checkpoint worker ∈ todo → ∀ cp, (worker, cp) ∉ reads) ∧
    (.checkpoint worker ∉ todo → ∀ cp, (worker, cp) ∈ reads ↔ s.last = some cp)
  claimed : ∀ reads, s.phase = .claimed reads →
    s.held = false ∧ ∀ cp, (worker, cp) ∈ reads ↔ s.last = some cp
  inherits : Inherits s
  spawning : s.spawned ≠ none → ∃ reads, s.phase = .claimed reads

theorem Tracks.checkpoint {s : State ι} (h : Tracks worker s) {cp : Checkpoint ι} {fault : Fault}
    (hsettled : Settled worker s (.checkpoint cp fault)) :
    Tracks worker (s.step worker (.checkpoint cp fault)) := by
  by_cases hfault : fault = .failed
  · rw [State.step, if_pos hfault]
    exact h
  have hsettled' := hsettled.resolve_left hfault
  -- an unread checkpoint is replaced together with the last one, a read one not at all
  have hunread : Unread worker s.phase → (if s.held then some cp else s.last) = some cp := by
    intro hunread
    split_ifs with hheld
    · rfl
    · exact hsettled'.resolve_left fun hiff => hheld (hiff.mpr hunread)
  have hread : ¬ Unread worker s.phase → (if s.held then some cp else s.last) = s.last := by
    intro hread
    split_ifs with hheld
    · exact (hsettled'.resolve_left fun hiff => hread (hiff.mp hheld)).symm
    · rfl
  rw [State.step, if_neg hfault]
  refine ⟨fun hu => ?_, fun todo reads hphase => ?_, fun reads hphase => ?_, fun c hc => ?_,
    h.spawning⟩
  · change AList.lookup _ (AList.insert _ _ _) = (if s.held then some cp else s.last).map _
    rw [hunread hu, AList.lookup_insert]
    rfl
  · obtain ⟨hnodup, hin, hout⟩ := h.loading todo reads hphase
    refine ⟨hnodup, hin, fun hw c => (hout hw c).trans ?_⟩
    change _ ↔ (if s.held then some cp else s.last) = some c
    rw [hread fun hu => hw (by change Unread worker s.phase at hu; rwa [hphase] at hu)]
  · obtain ⟨hheld, hreads⟩ := h.claimed reads hphase
    refine ⟨hheld, fun c => (hreads c).trans ?_⟩
    change _ ↔ (if s.held then some cp else s.last) = some c
    rw [hread fun hu => by rwa [hphase] at hu]
  · obtain ⟨reads, hphase⟩ := h.spawning (by rw [hc]; nofun)
    change c = (if s.held then some cp else s.last).getD _
    rw [hread fun hu => by rwa [hphase] at hu]
    exact h.inherits c hc

/-- The next read of the boot. -/
theorem Tracks.readNext {s : State ι} (h : Tracks worker s) (fault : Fault) :
    Tracks worker (s.readNext fault) := by
  have hspawned : ∀ {key todo reads}, s.phase = .loading (key :: todo) reads →
      s.spawned = none := by
    intro key todo reads hphase
    by_contra hne
    obtain ⟨_, hclaimed⟩ := h.spawning hne
    rw [hphase] at hclaimed
    cases hclaimed
  unfold State.readNext
  split
  case h_2 => exact h
  case h_1 key todo reads hphase =>
    obtain ⟨hkeys, hin, hout⟩ := h.loading _ reads hphase
    obtain ⟨hkey, hnodup⟩ := List.nodup_cons.mp hkeys
    have hnone := hspawned hphase
    have hunread : .checkpoint worker ∈ key :: todo →
        s.store.lookup (.checkpoint worker) = s.last.map .checkpoint := fun hmem =>
      h.unread (by rw [hphase]; exact hmem)
    -- reading on without a checkpoint of the worker's
    have hskip : key ≠ .checkpoint worker →
        Tracks worker { s with phase := .loading todo reads } := by
      intro hne
      refine ⟨fun hu => hunread (.tail _ hu), ?_, nofun, fun c hc => ?_, fun hne => ?_⟩
      · rintro _ _ ⟨⟩
        refine ⟨hnodup, fun hw => hin (.tail _ hw), fun hw => hout fun hmem => ?_⟩
        rcases List.mem_cons.mp hmem with heq | hmem
        · exact hne heq.symm
        · exact hw hmem
      · exact absurd (hnone.symm.trans hc) nofun
      · exact absurd hnone hne
    cases key with
    | other name => exact hskip nofun
    | checkpoint w =>
      dsimp only
      split_ifs with hfault
      · refine ⟨nofun, nofun, nofun, fun c hc => ?_, fun hne => absurd hnone hne⟩
        exact absurd (hnone.symm.trans hc) nofun
      by_cases hw : w = worker
      · subst hw
        have hlookup := hunread List.mem_cons_self
        have hold := hin List.mem_cons_self
        have hdone : ∀ reads', (∀ c, (w, c) ∈ reads' ↔ s.last = some c) →
            Tracks w { s with phase := .loading todo reads' } := by
          intro reads' hreads'
          refine ⟨fun hu => absurd hu hkey, ?_, nofun, fun c hc => ?_, fun hne => absurd hnone hne⟩
          · rintro _ _ ⟨⟩
            exact ⟨hnodup, fun hmem => absurd hmem hkey, fun _ => hreads'⟩
          · exact absurd (hnone.symm.trans hc) nofun
        rcases Option.eq_none_or_eq_some s.last with hlast | ⟨cp, hlast⟩
        · rw [hlast, Option.map_none] at hlookup
          rw [hlookup]
          exact hdone reads fun c => by simp [hold, hlast]
        · rw [hlast, Option.map_some] at hlookup
          rw [hlookup]
          exact hdone (reads ++ [(w, cp)]) fun c => by simp [hold, hlast, eq_comm]
      · cases hlookup : s.store.lookup (.checkpoint w) with
        | none => exact hskip (by simpa using hw)
        | some blob =>
          cases blob with
          | garbled => exact hskip (by simpa using hw)
          | checkpoint cp =>
            have hmem : ∀ c, (worker, c) ∈ reads ++ [(w, cp)] ↔ (worker, c) ∈ reads := fun c => by
              simp [Ne.symm hw]
            obtain ⟨hu, hl, _, hi, hs⟩ := hskip (by simpa using hw)
            obtain ⟨hnodup, hin, hout⟩ := hl todo reads rfl
            refine ⟨hu, ?_, nofun, hi, fun hne => absurd hnone hne⟩
            rintro _ _ ⟨⟩
            exact ⟨hnodup, fun hw c => by rw [hmem]; exact hin hw c,
              fun hw c => by rw [hmem]; exact hout hw c⟩

theorem tracks_step {s : State ι} (h : Tracks worker s) (m : Move ι)
    (hsettled : Settled worker s m) : Tracks worker (s.step worker m) := by
  have hspawned : ∀ {p : Phase ι}, s.phase = p → (∀ reads, p ≠ .claimed reads) →
      s.spawned = none := by
    intro p hphase hp
    by_contra hne
    obtain ⟨reads, hclaimed⟩ := h.spawning hne
    exact hp reads (hphase.symm.trans hclaimed)
  cases m with
  | checkpoint cp fault => exact h.checkpoint hsettled
  | write key blob =>
    unfold State.step
    dsimp only
    split_ifs with hkey
    · exact h
    · refine ⟨fun hu => ?_, h.loading, h.claimed, h.inherits, h.spawning⟩
      exact (AList.lookup_insert_ne (Ne.symm hkey)).trans (h.unread hu)
  | lose => exact ⟨h.unread, h.loading, fun reads hr => ⟨rfl, (h.claimed reads hr).2⟩, h.inherits,
      h.spawning⟩
  | list fault =>
    unfold State.step
    dsimp only
    split
    next hphase =>
      have hnone := hspawned hphase nofun
      split_ifs with hfault
      · refine ⟨fun _ => h.unread (by rw [hphase]; trivial), ?_, nofun, fun c hc => ?_,
          fun hne => absurd hnone hne⟩
        · rintro _ _ ⟨⟩
          refine ⟨s.store.nodupKeys, fun _ => nofun, fun hw c => ?_⟩
          have hlookup := h.unread (by rw [hphase]; trivial)
          rw [AList.lookup_eq_none.mpr (by simpa [AList.mem_keys] using hw)] at hlookup
          cases hlast : s.last with
          | none => simp
          | some cp =>
            rw [hlast] at hlookup
            cases hlookup
        · exact absurd (hnone.symm.trans hc) nofun
      · refine ⟨nofun, nofun, nofun, fun c hc => ?_, fun hne => absurd hnone hne⟩
        exact absurd (hnone.symm.trans hc) nofun
    · exact h
  | read fault => exact h.readNext fault
  | claim =>
    unfold State.step
    dsimp only
    split
    next reads hphase =>
      have hnone := hspawned hphase nofun
      obtain ⟨_, _, hout⟩ := h.loading [] reads hphase
      refine ⟨nofun, nofun, ?_, fun c hc => ?_, fun hne => absurd hnone hne⟩
      · rintro _ ⟨⟩
        exact ⟨rfl, hout nofun⟩
      · exact absurd (hnone.symm.trans hc) nofun
    · exact h
  | spawn =>
    unfold State.step
    dsimp only
    split
    next reads hphase hnone =>
      obtain ⟨hheld, hreads⟩ := h.claimed reads hphase
      refine ⟨h.unread, h.loading, h.claimed, ?_, fun _ => ⟨reads, hphase⟩⟩
      rintro _ ⟨⟩
      exact spawned_eq hreads (hsettled reads hphase)
    · exact h

/-- A worker's old holder, and a node about to boot. -/
def handover (worker : Nat) (last : Option (Checkpoint ι))
    (others : Blobs WorkerKey (WorkerBlob ι)) :
    State ι :=
  { store := match last with
      | some cp => others.insert (.checkpoint worker) (.checkpoint cp)
      | none => others.erase (.checkpoint worker)
    last }

theorem tracks_handover (worker : Nat) (last : Option (Checkpoint ι))
    (others : Blobs WorkerKey (WorkerBlob ι)) : Tracks worker (handover worker last others) := by
  refine ⟨fun _ => ?_, nofun, nofun, nofun, fun hne => absurd rfl hne⟩
  cases last with
  | none => exact AList.lookup_erase _ _
  | some cp => exact AList.lookup_insert _

/-- A boot that is not overtaken by the holder's checkpoints hands down the last of them. -/
theorem boot_inherits (worker : Nat) (last : Option (Checkpoint ι))
    (others : Blobs WorkerKey (WorkerBlob ι)) (moves : List (Move ι))
    (hsettled : Runs.Guarded (State.step worker) (Settled worker) (handover worker last others)
      moves) :
    Runs.Throughout (State.step worker) Inherits (handover worker last others) moves :=
  Runs.Guarded.throughout (I := Tracks worker) (fun _ _ h hs => tracks_step h _ hs)
    (fun _ h => h.inherits) (tracks_handover worker last others) hsettled

/-- The worker owns object 7, -/
def holding : Checkpoint Nat := ⟨fun o => if o = 7 then some 1 else none, fun _ => none⟩

/-- and has released it to worker 1. -/
def released : Checkpoint Nat :=
  ⟨fun _ => none, fun o => if o = 7 then some (1, 2) else none⟩

/-- The holder releases the object before the new node's boot reads its checkpoint. -/
def earlyRelease : List (Move Nat) :=
  [.checkpoint released .none, .list .none, .read .none, .lose, .claim, .spawn]

theorem boot_inherits_earlyRelease :
    Runs.Throughout (State.step 0) Inherits (handover 0 (some holding) ∅) earlyRelease := by
  refine boot_inherits 0 _ ∅ earlyRelease ⟨.inr (.inl ⟨fun _ => trivial, fun _ => rfl⟩), trivial,
    trivial, trivial, trivial, ?_, trivial⟩
  rintro reads ⟨⟩ cp hcp o g ho
  obtain rfl : cp = released := by simpa using hcp
  cases ho

/-- It does so once that has been read. -/
def lateRelease : List (Move Nat) :=
  [.list .none, .read .none, .checkpoint released .none, .lose, .claim, .spawn]

theorem boot_resurrects_released :
    ¬ Runs.Throughout (State.step 0) Inherits (handover 0 (some holding) ∅) lateRelease := by
  intro h
  have heq := h.last _ rfl
  have hseven := congrFun (congrArg Checkpoint.owned heq) 7
  cases hseven

end Fafo.Takeover
