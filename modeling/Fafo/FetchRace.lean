import Fafo.CommuterCache
import Fafo.StoreRules

/-! One activation among the ships of a linear history: their puts, and the compactions that follow
them. -/
namespace Fafo.Legacy

open Interleave Deltas

variable {ι τ : Type} [DecidableEq ι] [DecidableEq τ]

/-- The promotions of an object's ships: each puts its payload, then deletes the deltas that it has
superseded; the next ship leaves once everything was promoted. -/
def promotions : List (ShipItem ι File) → LegacyTask ι τ File Unit
  | [] => .ret ()
  | item :: items =>
    (promoteAll [item]).bind fun unpromoted =>
      if unpromoted.isEmpty then (gcAll fileFormat [item]).bind fun _ => promotions items
      else .ret ()

omit [DecidableEq τ] in
theorem promotions_cons (item : ShipItem ι File) (items : List (ShipItem ι File)) :
    (promotions (item :: items) : LegacyTask ι τ File Unit) =
      .call (NodeOp.store (.put item.name.home (.bytes item.bytes))) fun r =>
        match r with
        | .ok _ => (gcAll fileFormat [item]).bind fun _ => promotions items
        | .error _ => .ret () := by
  refine congrArg (Prog.call _) (funext fun r => ?_)
  cases r <;> rfl

inductive Racer where
  | fetch
  | ship
  deriving DecidableEq

section Race

variable (object : ι) (cached : Option File) (items : List (ShipItem ι File))

/-- What the fetch answers; the ships answer nothing. -/
abbrev Fetched : Type := Option (Except Error (File × Nat))

def Racer.prog : Racer → LegacyTask ι τ File Fetched
  | fetch => (fetchImage object cached).bind fun r => .ret (some r)
  | ship => (promotions items).bind fun _ => .ret none

abbrev RaceConfig (ι τ : Type) :=
  Config (nodeSig (Key ι τ) (Blob ι τ File) (Note ι τ)) (LegacyWorld ι τ File) Racer Fetched

def race (blobs : Blobs (Key ι τ) (Blob ι τ File)) : RaceConfig ι τ :=
  ⟨{ blobs := blobs }, fun who => .start (who.prog object cached items)⟩

end Race

section History

variable (L : Lineage) (object : ι)

/-- The ships take the lineage on, from base `b` and state `m`: snapshots become the base, and each
delta leads from the newest state to the next. -/
def Advances : Nat → Nat → List (ShipItem ι File) → Prop
  | _, _, [] => True
  | b, m, item :: items =>
    item.object = object ∧
      match item.payload with
      | .snapshot bytes _ =>
        ∃ n, b ≤ n ∧ n ≤ L.last ∧ bytes = L.image n ∧ Advances n (max m n) items
      | .delta counter bytes =>
        m < L.last ∧ counter = L.counter (m + 1) ∧
          (∃ delta, decode bytes = .ok delta ∧ apply (L.image m) delta = L.image (m + 1)) ∧
            Advances b (m + 1) items

/-- What the fetch has returned, if anything, is a state of the lineage from `m` on. -/
def Current (m : Nat) (c : RaceConfig ι τ) : Prop :=
  ∀ image total, (c.procs .fetch).prog = .ret (some (.ok (image, total))) →
    ∃ j, m ≤ j ∧ j ≤ L.last ∧ image = L.image j

/-- When the deltas are listed, the base is still the one whose header was read, or the local file
is not taken for it, or the listed deltas above the local file lead on from it to state `m` or
later. -/
def LeadsOn (cached : Option File) (m : Nat) (last : Option (Event (nodeSig (Key ι τ)
    (Blob ι τ File) (Note ι τ)))) (o : NodeOp (Key ι τ) (Blob ι τ File) (Note ι τ))
    (w : LegacyWorld ι τ File) : Prop :=
  match last, o with
  | some ⟨.store (.get _), .ok header⟩, .store (.list _) =>
    ∀ baseCounter, (header.bind fileOf).bind headerCounter = some baseCounter →
      (baseOf w object).map changeCounter = some baseCounter ∨
      ∀ cache ∈ cached, 100 ≤ cache.length → baseCounter ≤ changeCounter cache →
        let counters := sortedCounters object (w.blobs.keys.filter (deltaPrefix object))
        changeCounter cache ≤ (counters.filter (baseCounter < ·)).foldl max baseCounter →
        ∃ k n, cache = L.image k ∧ m ≤ k + n ∧ k + n ≤ L.last ∧
          counters.filter (changeCounter cache < ·) = L.counters k n
  | _, _ => True

/-- The condition, as a condition on a step of the run. -/
def RaceStep (cached : Option File) (m : Nat) (c : RaceConfig ι τ) (who : Racer) (_ : Env) :
    Prop :=
  match (c.procs who).prog with
  | .call o _ => LeadsOn L object cached m (c.procs who).last o c.shared
  | .ret _ => True

end History

/-- The store holds states `b` to `m`, and whatever delta lies under the counter of a state after
state `floor` produces it. -/
structure Held (L : Lineage) (object : ι) (floor b m : Nat) (w : LegacyWorld ι τ File) : Prop where
  shelved : Shelved L w object b m
  above : floor ≤ b
  genuine : ∀ j, floor ≤ j → j < L.last →
    (w.get (.delta object (L.counter (j + 1)))).isSome → Leads L w object j

/-- Whatever the store held, it now holds that or something later. -/
def Onward (L : Lineage) (object : ι) (floor : Nat) (w w' : LegacyWorld ι τ File) : Prop :=
  ∀ b m, Held L object floor b m w → ∃ b' m', b ≤ b' ∧ m ≤ m' ∧ Held L object floor b' m' w'

section

variable {L : Lineage} {object : ι} {floor b k m n : Nat} {w w' : LegacyWorld ι τ File}

instance : Std.Refl (Onward (τ := τ) L object floor) :=
  ⟨fun _ b m h => ⟨b, m, le_rfl, le_rfl, h⟩⟩

instance : IsTrans (LegacyWorld ι τ File) (Onward L object floor) where
  trans w w' w'' h h' b m hheld := by
    obtain ⟨b', m', hb, hm, hheld'⟩ := h b m hheld
    obtain ⟨b'', m'', hb', hm', hheld''⟩ := h' b' m' hheld'
    exact ⟨b'', m'', hb.trans hb', hm.trans hm', hheld''⟩

theorem Shelved.held (h : Shelved L w object b m) : Held L object b b m w where
  shelved := h
  above := le_rfl
  genuine := by
    intro j hj hlast hsome
    obtain ⟨i, hi, him, heq⟩ := h.others _ hsome (Lineage.counter_lt (by omega) (by omega))
    have hknown := h.known
    have hij : j + 1 = i + 1 := Lineage.counter_inj (by omega) (by omega) heq
    exact h.leads j hj (by omega)

theorem Shelved.unique {b' m' : Nat} (h : Shelved L w object b m)
    (h' : Shelved L w object b' m') : b = b' ∧ m = m' := by
  have hle := h.le
  have hle' := h'.le
  have hknown := h.known
  have hknown' := h'.known
  have himage : L.image b = L.image b' := Option.some.inj (h.base.symm.trans h'.base)
  obtain rfl : b = b' := by
    refine Lineage.counter_inj (L := L) (by omega) (by omega) ?_
    rw [Lineage.counter, himage, Lineage.counter]
  have hlength := h.length_chain.symm.trans h'.length_chain
  exact ⟨rfl, by omega⟩

theorem Leads.congr {j : Nat} (h : w'.get (.delta object (L.counter (j + 1))) =
    w.get (.delta object (L.counter (j + 1)))) : Leads L w' object j ↔ Leads L w object j := by
  rw [Leads, Leads, deltaAt, h, deltaAt]

/-- What the store still finds of a chain does not depend on the other keys. -/
theorem Held.onward (h : Held L object floor b m w) {b' m' : Nat} (hb : b ≤ b') (hm : m ≤ m')
    (h' : Held L object floor b' m' w') : Onward L object floor w w' := by
  intro x y hheld
  obtain ⟨rfl, rfl⟩ := hheld.shelved.unique h.shelved
  exact ⟨b', m', hb, hm, h'⟩

/-- A newer state becomes the base. -/
theorem Held.put_base (h : Held L object floor b m w) (hn : b ≤ n) (hlast : n ≤ L.last) :
    Held L object floor n (max m n)
      (w.effect (.put (.base object) (.bytes (L.image n)))) := by
  have hdelta : ∀ c, (w.effect (.put (.base object) (.bytes (L.image n)))).get
      (.delta object c) = w.get (.delta object c) := by
    intro c
    rw [World.get_put, if_neg nofun]
  have hknown := h.shelved.known
  refine ⟨⟨le_max_right m n, by omega, ?_, ?_, ?_⟩, h.above.trans hn, ?_⟩
  · rw [baseOf, World.get_put, if_pos rfl]
    rfl
  · intro j hj hjm
    exact (Leads.congr (hdelta _)).mpr (h.shelved.leads j (by omega) (by omega))
  · intro c hsome hlt
    rw [hdelta] at hsome
    have hbn : L.counter b ≤ L.counter n := (Lineage.counter_le_iff (by omega) hlast).mpr hn
    obtain ⟨j, hbj, hjm, rfl⟩ := h.shelved.others c hsome (hbn.trans_lt hlt)
    rw [Lineage.counter_lt_iff hlast (by omega)] at hlt
    exact ⟨j, by omega, by omega, rfl⟩
  · intro j hj hjl hsome
    rw [hdelta] at hsome
    exact (Leads.congr (hdelta _)).mpr (h.genuine j hj hjl hsome)

/-- The delta to the next state lands. -/
theorem Held.put_delta (h : Held L object floor b m w) (hlast : m < L.last) {bytes : File}
    {delta : Delta} (hdecode : decode bytes = .ok delta)
    (happly : apply (L.image m) delta = L.image (m + 1)) :
    Held L object floor b (m + 1)
      (w.effect (.put (.delta object (L.counter (m + 1))) (.bytes bytes))) := by
  have hle := h.shelved.le
  have hnew : Leads L (w.effect (.put (.delta object (L.counter (m + 1))) (.bytes bytes)))
      object m := by
    refine ⟨delta, ?_, happly⟩
    rw [deltaAt, World.get_put, if_pos rfl]
    simp [fileOf, hdecode, Except.toOption]
  have hold : ∀ j, j < L.last → j ≠ m →
      (w.effect (.put (.delta object (L.counter (m + 1))) (.bytes bytes))).get
        (.delta object (L.counter (j + 1))) = w.get (.delta object (L.counter (j + 1))) := by
    intro j hj hjm
    rw [World.get_put, if_neg]
    intro heq
    have hcounter := Lineage.counter_inj (by omega) (by omega) (Key.delta.inj heq).2
    omega
  refine ⟨⟨by omega, by omega, ?_, ?_, ?_⟩, h.above, ?_⟩
  · rw [baseOf, World.get_put, if_neg fun heq => by cases heq]
    exact h.shelved.base
  · intro j hj hjm
    rcases (Nat.lt_succ_iff.mp hjm).lt_or_eq with hlt | rfl
    · exact (Leads.congr (hold j (by omega) (by omega))).mpr (h.shelved.leads j hj hlt)
    · exact hnew
  · intro c hsome hlt
    rw [World.get_put] at hsome
    split_ifs at hsome with heq
    · exact ⟨m, hle, by omega, (Key.delta.inj heq).2⟩
    · obtain ⟨j, hbj, hjm, rfl⟩ := h.shelved.others c hsome hlt
      exact ⟨j, hbj, by omega, rfl⟩
  · intro j hj hjl hsome
    by_cases hjm : j = m
    · rw [hjm]
      exact hnew
    · rw [hold j hjl hjm] at hsome
      exact (Leads.congr (hold j hjl hjm)).mpr (h.genuine j hj hjl hsome)

/-- A superseded delta is deleted. -/
theorem Held.delete (h : Held L object floor b m w) {c : Nat} (hc : c ≤ L.counter b) :
    Held L object floor b m (w.effect (.delete (.delta object c))) := by
  have hknown := h.shelved.known
  have hgone : ∀ d, ((w.effect (.delete (.delta object c))).get (.delta object d)).isSome →
      d ≠ c ∧ (w.get (.delta object d)).isSome := by
    intro d hsome
    rw [World.get_delete] at hsome
    split_ifs at hsome with heq
    · cases hsome
    · exact ⟨fun hdc => heq (by rw [hdc]), hsome⟩
  have hold : ∀ d, d ≠ c → (w.effect (.delete (.delta object c))).get (.delta object d) =
      w.get (.delta object d) := by
    intro d hd
    rw [World.get_delete, if_neg fun heq => hd (Key.delta.inj heq).2]
  refine ⟨⟨h.shelved.le, hknown, ?_, ?_, ?_⟩, h.above, ?_⟩
  · rw [baseOf, World.get_delete, if_neg fun heq => by cases heq]
    exact h.shelved.base
  · intro j hj hjm
    have hlt : L.counter b < L.counter (j + 1) := Lineage.counter_lt (by omega) (by omega)
    exact (Leads.congr (hold _ (by omega))).mpr (h.shelved.leads j hj hjm)
  · intro d hsome hlt
    exact h.shelved.others d (hgone d hsome).2 hlt
  · intro j hj hjl hsome
    obtain ⟨hne, hsome⟩ := hgone _ hsome
    exact (Leads.congr (hold _ hne)).mpr (h.genuine j hj hjl hsome)

variable {admits : Env → Option (Event (nodeSig (Key ι τ) (Blob ι τ File) (Note ι τ))) →
  NodeOp (Key ι τ) (Blob ι τ File) (Note ι τ) → LegacyWorld ι τ File → Prop}

theorem does_gcKeys {base : Nat} (h : Held L object floor b m w) (hbase : base ≤ L.counter b)
    (keys : List (Key ι τ)) :
    Does node admits Eq (Onward L object floor) (fun _ t => Held L object floor b m t)
      (gcKeys object base keys) w := by
  induction keys generalizing w with
  | nil =>
    refine Does.ret ?_
    rintro t rfl
    exact h
  | cons key keys ih =>
    rw [gcKeys]
    split_ifs with hc
    · obtain ⟨c, hparse, hle⟩ := (Option.any_eq_true _ _).mp hc
      obtain rfl := parseDeltaCounter_eq_some.mp hparse
      have hdeleted := h.delete ((of_decide_eq_true hle).trans hbase)
      exact StoreOp.does_alone (h.onward le_rfl le_rfl hdeleted) (fun _ => ih hdeleted) (ih h)
    · exact ih h

theorem does_gcAll {item : ShipItem ι File} (hobject : item.object = object)
    (h : Held L object floor b m w)
    (hbase : ∀ bytes gc, item.payload = .snapshot bytes gc → changeCounter bytes ≤ L.counter b) :
    Does node admits Eq (Onward L object floor) (fun _ t => Held L object floor b m t)
      (gcAll fileFormat [item]) w := by
  obtain ⟨o, payload⟩ := item
  obtain rfl : o = object := hobject
  have hdone : ∀ t, Held L o floor b m t → Does node admits Eq (Onward L o floor)
      (fun _ t => Held L o floor b m t) (.ret () : LegacyTask ι τ File Unit) t := by
    intro t ht
    refine Does.ret ?_
    rintro u rfl
    exact ht
  refine Does.bind (Does.mono (fun _ t ht => hdone t ht) ?_)
  split
  · next bytes hpayload =>
    refine StoreOp.does_alone (Std.Refl.refl w) (fun r => ?_) (hdone w h)
    cases r with
    | ok keys => exact does_gcKeys h (hbase bytes true hpayload) keys
    | error e => exact hdone w h
  · exact hdone w h

/-- The payload of the next ship takes the store on. -/
theorem Held.promote {item : ShipItem ι File} {items : List (ShipItem ι File)}
    (h : Held L object floor b m w) (hitems : Advances L object b m (item :: items)) :
    ∃ b' m', b ≤ b' ∧ m ≤ m' ∧
      Held L object floor b' m' (w.effect (.put item.name.home (.bytes item.bytes))) ∧
      Advances L object b' m' items ∧
      ∀ bytes gc, item.payload = .snapshot bytes gc → changeCounter bytes ≤ L.counter b' := by
  obtain ⟨o, payload⟩ := item
  obtain ⟨rfl, hpayload⟩ := hitems
  cases payload with
  | snapshot bytes gc =>
    obtain ⟨n, hn, hlast, rfl, hrest⟩ := hpayload
    refine ⟨n, max m n, hn, le_max_left m n, h.put_base hn hlast, hrest, ?_⟩
    rintro bytes gc ⟨rfl, rfl⟩
    exact le_rfl
  | delta counter bytes =>
    obtain ⟨hlast, rfl, ⟨delta, hdecode, happly⟩, hrest⟩ := hpayload
    exact ⟨b, m + 1, le_rfl, Nat.le_succ m, h.put_delta hlast hdecode happly, hrest, nofun⟩

/-- Ships that take the lineage on take the store on. -/
theorem does_promotions {items : List (ShipItem ι File)} (h : Held L object floor b m w)
    (hitems : Advances L object b m items) :
    Does node admits Eq (Onward L object floor) (fun _ _ => True) (promotions items) w := by
  induction items generalizing b m w with
  | nil => exact Does.ret fun _ _ => trivial
  | cons item items ih =>
    have hobject : item.object = object := hitems.1
    obtain ⟨b', m', hb, hm, hheld, hrest, hbase⟩ := h.promote hitems
    rw [promotions_cons]
    refine StoreOp.does_alone (h.onward hb hm hheld) (fun r => ?_) (Does.ret fun _ _ => trivial)
    cases r with
    | error e => exact Does.ret fun _ _ => trivial
    | ok a =>
      have hrest : ∀ t, Held L object floor b' m' t → Does node admits Eq
          (Onward L object floor) (fun _ _ => True) (promotions items) t := fun t ht => ih ht hrest
      exact Does.bind ((does_gcAll hobject hheld hbase).mono fun _ => hrest)

/-- The deltas that lead on from a state are applied in turn, or one of them is gone. -/
theorem does_applyDeltas {base seen : Nat} (hbase : base ≤ seen) {cs : List Nat}
    (hcs : cs.filter (seen < ·) = L.counters k n) (hlast : k + n ≤ L.last) (hfloor : floor ≤ k)
    (h : Held L object floor b m w) (total : Nat) :
    Does node admits (Onward L object floor) Eq
      (fun r _ => ∀ image total, r = .ok (image, total) → image = L.image (k + n))
      (applyDeltas object base seen cs (L.image k) total) w := by
  induction cs generalizing b m k n total w with
  | nil =>
    refine Does.ret fun _ _ => ?_
    rintro image total ⟨rfl, rfl⟩
    have hn : n = 0 := by rw [← L.length_counters k n, ← hcs]; rfl
    rw [hn, Nat.add_zero]
  | cons c cs ih =>
    rw [applyDeltas]
    by_cases hseen : c ≤ seen
    · have hskip : (c :: cs).filter (seen < ·) = cs.filter (seen < ·) :=
        List.filter_cons_of_neg (by simpa using hseen)
      rw [hskip] at hcs
      split_ifs
      · exact ih hcs hlast hfloor h total
      · exact ih hcs hlast hfloor h (total + 1)
    · have hkeep : (c :: cs).filter (seen < ·) = c :: cs.filter (seen < ·) :=
        List.filter_cons_of_pos (by simpa using hseen)
      rw [hkeep] at hcs
      rw [if_neg (by omega), if_neg hseen]
      cases n with
      | zero => cases hcs
      | succ n =>
        rw [Lineage.counters_succ] at hcs
        obtain ⟨rfl, hrest⟩ := List.cons.inj hcs
        intro last
        refine Store.sat_read (fun _ => rfl) (fun t e ht _ => ?_) fun _ _ _ _ hr => by cases hr
        obtain ⟨b', m', _, _, hheld⟩ := ht b m h
        split
        · intro _ _ _ _ hr
          cases hr
        · next bytes hbytes =>
          have hsome : (t.get (.delta object (L.counter (k + 1)))).isSome := by
            obtain ⟨blob, hblob, _⟩ := Option.bind_eq_some_iff.mp hbytes
            exact Option.isSome_iff_exists.mpr ⟨blob, hblob⟩
          obtain ⟨delta, hdelta, happly⟩ := hheld.genuine k hfloor (by omega) hsome
          obtain ⟨bytes', hbytes', hdecode⟩ := deltaAt_eq_some hdelta
          obtain rfl : bytes' = bytes := Option.some.inj (hbytes'.symm.trans hbytes)
          rw [hdecode]
          dsimp only
          rw [happly]
          have hnext := ih (k := k + 1) (n := n) hrest (by omega) (by omega) hheld (total + 1)
          rw [Nat.add_assoc, Nat.add_comm 1 n] at hnext
          exact hnext _

/-- What is answered, if an image is, is a state of the lineage from `m` on. -/
def Late (L : Lineage) (m : Nat) (r : Except Error (File × Nat)) : Prop :=
  ∀ image total, r = .ok (image, total) → ∃ j, m ≤ j ∧ j ≤ L.last ∧ image = L.image j

/-- From a state that the listed deltas lead on from, a fetch comes to a state from `m` on. -/
theorem Held.finish {b₀ k m' : Nat} {cs : List Nat} (h : Held L object floor b m' w)
    (hfloor : floor ≤ b₀) (hlast₀ : b₀ ≤ L.last) (hk : L.counter b₀ ≤ L.counter k)
    (hlast : k + n ≤ L.last) (hm : m ≤ k + n)
    (hcs : cs.filter (L.counter k < ·) = L.counters k n) :
    Does node admits (Onward L object floor) Eq (fun r _ => Late L m r)
      (applyDeltas object (L.counter b₀) (changeCounter (L.image k)) cs (L.image k) 0) w := by
  have hbk : b₀ ≤ k := (Lineage.counter_le_iff hlast₀ (by omega)).mp hk
  refine (does_applyDeltas hk hcs hlast (by omega) h 0).mono fun r _ hr image total heq => ?_
  exact ⟨k + n, hm, hlast, hr image total heq⟩

/-- The base is read once more, after the listing: it leads on to all that was listed. -/
theorem Held.download {b₀ m' : Nat} (h : Held L object floor b m' w) (hfloor : floor ≤ b₀)
    (hb₀ : b₀ ≤ b) (hm : m ≤ m') :
    Does node admits (Onward L object floor) Eq (fun r _ => Late L m r)
      (((Store.get (.base object)).attempt fun base =>
        .ret (.ok ((base.bind fileOf).getD [])) : LegacyTry ι τ File File).attempt fun image =>
          applyDeltas object (L.counter b₀) (changeCounter image)
            (sortedCounters object (w.blobs.keys.filter (deltaPrefix object))) image 0) w := by
  have hle := h.shelved.le
  have hknown := h.shelved.known
  refine Does.attempt fun last => ?_
  refine Store.sat_read (fun _ => rfl) (fun v e hv _ => ?_)
    fun _ _ => ⟨nofun, fun _ _ _ _ => nofun⟩
  obtain ⟨b₂, m₂, hb₂, hm₂, h₂⟩ := hv b m' h
  have hlast₂ : b₂ ≤ L.last := h₂.shelved.le.trans h₂.shelved.known
  have hbase : ((StoreOp.get (.base object)).value v.blobs).bind fileOf =
      some (L.image b₂) := h₂.shelved.base
  rw [hbase]
  intro x hx
  refine ⟨?_, nofun⟩
  rintro image ⟨⟩
  obtain ⟨b₃, m₃, _, _, h₃⟩ := hx b₂ m₂ h₂
  refine h₃.finish (k := b₂) (n := m' - b₂) hfloor (by omega) ?_ (by omega) (by omega) ?_
  · exact (Lineage.counter_le_iff (by omega) hlast₂).mpr (by omega)
  · exact h.shelved.above hb₂ hlast₂

/-- Whatever the ships do meanwhile, a fetch for which the listed deltas lead on returns a state of
the lineage from `m` on, if it returns an image. -/
theorem Held.fetch (h : Held L object floor b m w) {cached : Option File}
    (hcached : Commuter L cached) :
    Does node (fun _ => LeadsOn L object cached m) (Onward L object floor) Eq
      (fun r _ => Late L m r) (fetchImage object cached) w := by
  intro last
  refine Store.sat_read (fun _ => rfl) (fun t e ht _ => ?_) fun _ _ => nofun
  obtain ⟨b₀, m₀, hb₀, hm₀, h₀⟩ := ht b m h
  have hlast₀ : b₀ ≤ L.last := h₀.shelved.le.trans h₀.shelved.known
  have hfloor := h₀.above
  have hheader : (((StoreOp.get (.base object)).value t.blobs).bind fileOf).bind headerCounter =
      some (L.counter b₀) := by
    have hbase : ((StoreOp.get (.base object)).value t.blobs).bind fileOf =
        some (L.image b₀) := h₀.shelved.base
    rw [hbase]
    exact headerCounter_eq (L.full b₀ hlast₀)
  rw [hheader]
  refine Store.sat_read (fun _ => rfl) (fun u e hu hguard => ?_) fun _ _ => nofun
  replace hguard := hguard (L.counter b₀) hheader
  obtain ⟨b₁, m₁, hb₁, hm₁, h₁⟩ := hu b₀ m₀ h₀
  have hle₁ := h₁.shelved.le
  have hknown₁ := h₁.shelved.known
  split
  · next cache hcache =>
    obtain ⟨hmem, hlong⟩ := Option.filter_eq_some_iff.mp hcache
    have hlong : 100 ≤ cache.length := of_decide_eq_true hlong
    dsimp only
    split_ifs with haccepted
    · obtain ⟨hlow, hhigh⟩ := haccepted
      rcases hguard with hsame | hleads
      · rw [h₁.shelved.base] at hsame
        obtain rfl : b₁ = b₀ :=
          Lineage.counter_inj (by omega) hlast₀ (Option.some.inj hsame)
        have hdurable : changeCounter cache ≤ L.counter m₁ := by
          rw [← h₁.shelved.durable]
          exact hhigh
        have hreach : L.counter m₁ ≤ L.counter L.last :=
          (Lineage.counter_le_iff hknown₁ le_rfl).mpr hknown₁
        obtain hshort | ⟨k, hk, rfl⟩ | hahead := hcached cache hmem
        · omega
        · have hkm : k ≤ m₁ := (Lineage.counter_le_iff hk hknown₁).mp hdurable
          have hbk : b₁ ≤ k := (Lineage.counter_le_iff hlast₀ hk).mp hlow
          have hcs := h₁.shelved.above hbk hk
          exact h₁.finish hfloor hlast₀ hlow (by omega) (by omega) hcs _
        · omega
      · obtain ⟨k, n, rfl, hmk, hlast, hcs⟩ := hleads cache hmem hlong hlow hhigh
        exact h₁.finish hfloor hlast₀ hlow hlast hmk hcs _
    · exact h₁.download hfloor hb₁ (by omega) _
  · exact h₁.download hfloor hb₁ (by omega) _

/-- What a racer puts up with. -/
def Racer.rely (L : Lineage) (object : ι) (floor : Nat) :
    Racer → LegacyWorld ι τ File → LegacyWorld ι τ File → Prop
  | fetch => Onward L object floor
  | ship => Eq

/-- What a racer does to the store. -/
def Racer.owes (L : Lineage) (object : ι) (floor : Nat) :
    Racer → LegacyWorld ι τ File → LegacyWorld ι τ File → Prop
  | fetch => Eq
  | ship => Onward L object floor

/-- What a racer answers. -/
def Racer.answers (L : Lineage) (m : Nat) : Racer → Fetched → LegacyWorld ι τ File → Prop
  | fetch, r, _ => ∀ image total, r = some (.ok (image, total)) →
      ∃ j, m ≤ j ∧ j ≤ L.last ∧ image = L.image j
  | ship, _, _ => True

instance (who : Racer) : Std.Refl (who.rely (τ := τ) L object floor) where
  refl w := by
    cases who with
    | fetch => exact Std.Refl.refl (r := Onward L object floor) w
    | ship => exact rfl

instance (who : Racer) : IsTrans (LegacyWorld ι τ File) (who.rely L object floor) where
  trans w w' w'' h h' := by
    cases who with
    | fetch => exact IsTrans.trans (r := Onward L object floor) w w' w'' h h'
    | ship => exact Eq.trans h h'

theorem Racer.rely_of_owes {i j : Racer} (hij : i ≠ j) (h : j.owes L object floor w w') :
    i.rely L object floor w w' := by
  cases i <;> cases j
  · exact absurd rfl hij
  · exact h
  · exact h
  · exact absurd rfl hij

variable {cached : Option File} {items : List (ShipItem ι File)}
  {blobs : Blobs (Key ι τ) (Blob ι τ File)} {c : RaceConfig ι τ}

/-- The ships go on by themselves. -/
theorem ships_ahead (hheld : Held L object floor b m c.shared)
    (hships : Sat node (fun _ _ _ _ => True) Eq (Onward L object floor) (fun _ _ => True)
      (c.procs .ship).prog (c.procs .ship).last c.shared)
    (moves : List (Racer × Env)) (hmoves : ∀ move ∈ moves, move.1 = .ship) :
    (∃ b' m', Held L object floor b' m' (c.run node moves).shared) ∧
      Sat node (fun _ _ _ _ => True) Eq (Onward L object floor) (fun _ _ => True)
        ((c.run node moves).procs .ship).prog ((c.run node moves).procs .ship).last
        (c.run node moves).shared ∧
      (c.run node moves).procs .fetch = c.procs .fetch := by
  induction moves generalizing c b m with
  | nil => exact ⟨⟨b, m, hheld⟩, hships, rfl⟩
  | cons move moves ih =>
    obtain ⟨hmove, hrest⟩ := List.forall_mem_cons.mp hmoves
    obtain ⟨who, e⟩ := move
    obtain rfl : who = .ship := hmove
    cases hprog : (c.procs .ship).prog with
    | ret a =>
      have hstay : c.step node .ship e = c := by
        rw [Config.step, hprog]
      rw [Config.run, List.foldl_cons, hstay]
      exact ih hheld hships hrest
    | call o k =>
      rw [hprog] at hships
      obtain ⟨hG, hk⟩ := hships c.shared rfl e trivial
      obtain ⟨b', m', _, _, hnext⟩ := hG b m hheld
      have hstep : c.step node .ship e = ⟨(node.exec e o c.shared).2,
          Function.update c.procs .ship ⟨k (node.exec e o c.shared).1,
            some ⟨o, (node.exec e o c.shared).1⟩⟩⟩ := by
        rw [Config.step, hprog]
      have hfetch : (c.step node .ship e).procs .fetch = c.procs .fetch :=
        Config.step_procs_ne node c (by decide) e
      obtain ⟨hlater, hsat, hsame⟩ := ih (c := c.step node .ship e) (b := b') (m := m')
        (by rw [hstep]; exact hnext) (by rw [hstep]; simpa using hk) hrest
      exact ⟨hlater, hsat, hsame.trans hfetch⟩

/-- Whatever the ships do before and while an object is fetched, if the listed deltas lead on then
the fetch returns no image but a state of the lineage, at least as new as the newest in the store
when it began. -/
theorem fetch_races_ships {m₀ : Nat} (hshelved : Shelved L { blobs := blobs } object b m₀)
    (hitems : Advances L object b m₀ items) (hcached : Commuter L cached)
    {before after : List (Racer × Env)} (hbefore : ∀ move ∈ before, move.1 = .ship)
    (hm : m ≤ L.last)
    (hnewest : restored ((race object cached items blobs).run node before).shared object =
      some (L.image m))
    (hguard : ((race object cached items blobs).run node before).Guarded node
      (RaceStep L object cached m) after) :
    Current L m ((race object cached items blobs).run node (before ++ after)) := by
  have hships : Sat node (fun _ _ _ _ => True) Eq (Onward L object b) (fun _ _ => True)
      ((race object cached items blobs).procs .ship).prog none { blobs := blobs } := by
    refine Does.bind ((does_promotions hshelved.held hitems).mono ?_) none
    exact fun _ _ _ => Does.ret fun _ _ => trivial
  obtain ⟨⟨b', m', hheld⟩, hsat, hfetch⟩ :=
    ships_ahead (c := race object cached items blobs) hshelved.held hships before hbefore
  obtain rfl : m' = m := by
    refine Lineage.counter_inj (L := L) hheld.shelved.known hm ?_
    rw [Lineage.counter, Option.some.inj (hheld.shelved.restored.symm.trans hnewest),
      Lineage.counter]
  have hcontracts : Contracts node (fun _ => LeadsOn L object cached m')
      (Racer.rely L object b) (Racer.owes L object b) (Racer.answers L m')
      ((race object cached items blobs).run node before) := by
    intro who
    cases who with
    | fetch =>
      rw [hfetch]
      have hdoes : Does node (fun _ => LeadsOn L object cached m') (Onward L object b) Eq
          (Racer.answers L m' .fetch) ((fetchImage object cached).bind fun r => .ret (some r))
          ((race object cached items blobs).run node before).shared := by
        refine Does.bind ((hheld.fetch hcached).mono fun r _ hr => Does.ret fun _ _ => ?_)
        rintro image total ⟨⟩
        exact hr image total rfl
      exact hdoes none
    | ship =>
      exact hsat.conseq (fun _ _ _ _ _ => trivial) (fun _ _ => id) (fun _ _ => id)
        fun _ _ => id
  intro image total hend
  rw [Config.run_append] at hend
  have hlast := hcontracts.reach (fun _ _ hij _ _ => Racer.rely_of_owes hij)
    (fun c who e o k h hprog => by rw [RaceStep, hprog] at h; exact h) hguard.reach .fetch
  rw [hend] at hlast
  exact hlast _ (Std.Refl.refl (r := Onward L object b) _) image total rfl

end

/-- A compaction to the third edition. -/
def compacting : List (ShipItem Nat File) := [⟨0, .snapshot (edition 2) true⟩]

theorem advances_compacting : Advances (editions 2) 0 0 1 compacting :=
  ⟨rfl, 2, Nat.zero_le 2, le_rfl, rfl, trivial⟩

/-- The fetch reads the header of the first edition, the compaction runs to its end, and the fetch
finds no deltas. -/
def overtaken : List (Racer × Env) :=
  [(.fetch, {}), (.ship, {}), (.ship, {}), (.ship, {}), (.ship, {}), (.fetch, {})]

/-- The first edition is returned, though the second was in the store from the start. -/
theorem old_file_returned : Shelved (editions 2) shelf 0 0 1 ∧
    Advances (editions 2) 0 0 1 compacting ∧ Commuter (editions 2) (some (edition 0)) ∧
    ¬ Current (editions 2) 1
      ((race 0 (some (edition 0)) compacting shelf.blobs).run node overtaken) := by
  refine ⟨shelved_shelf (by decide), advances_compacting, commuter_edition, fun h => ?_⟩
  obtain ⟨j, hj, hlast, himage⟩ := h (edition 0) 0 rfl
  have hcounter : (editions 2).counter 0 < (editions 2).counter j := Lineage.counter_lt hj hlast
  rw [Lineage.counter, Lineage.counter, ← himage] at hcounter
  exact Nat.lt_irrefl _ hcounter

/-- The base is replaced between the two reads, and the deltas are still there. -/
def inTime : List (Racer × Env) := [(.fetch, {}), (.ship, {}), (.fetch, {}), (.fetch, {})]

theorem fetch_races_ships_inTime : Current (editions 2) 1
    ((race 0 (some (edition 0)) compacting shelf.blobs).run node ([] ++ inTime)) := by
  refine fetch_races_ships (L := editions 2) (shelved_shelf (by decide)) advances_compacting
    commuter_edition nofun (by decide) ?_ ?_
  · have hshelved : Shelved (editions 2) shelf 0 0 1 := shelved_shelf (by decide)
    exact hshelved.restored
  refine ⟨trivial, trivial, ?_, trivial, trivial⟩
  rintro baseCounter ⟨⟩
  right
  intro cache hmem _ _ counters _
  obtain rfl := Option.some.inj hmem
  exact ⟨0, 1, rfl, le_rfl, by decide, rfl⟩

end Fafo.Legacy
