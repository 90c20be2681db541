import Fafo.Legacy
import Fafo.StoreRules
import Fafo.Library.Solo

/-! Any number of rollers-forward over one store of committed records: what they may assume of each
other. -/
namespace Fafo.Legacy.Rollers

open Interleave

variable {ι τ β ρ : Type} [DecidableEq ι] [DecidableEq τ]

/-- A recovery, a recovery of the records touching an object, or one record rolled forward. -/
inductive Call (ι τ : Type) where
  | recover
  | touching (object : ι)
  | forward (txn : τ)

section Calls

variable (F : Files β) (held : Blobs (Key ι τ) (Blob ι τ β))

/-- The committed record under an id. -/
def committedRecord (txn : τ) : Option (TxnRecord ι τ β) :=
  (held.lookup (.record txn)).bind parseRecord

/-- A record is rolled forward as the store held it. -/
def Call.prog : Call ι τ → LegacyTry ι τ β Unit
  | recover => Legacy.recover F
  | touching object => recoverRecordsTouching F object
  | forward txn =>
    match committedRecord held txn with
    | some record => rollForward F (.record txn) record
    | none => .ret (.ok ())

/-- The records such a call rolls forward. -/
def Call.wants (call : Call ι τ) (txn : τ) (record : TxnRecord ι τ β) : Prop :=
  match call with
  | recover => True
  | touching object => object ∈ record.objects
  | forward t => t = txn

abbrev RollerConfig (ι τ ρ β : Type) :=
  Config (nodeSig (Key ι τ) (Blob ι τ β) (Note ι τ)) (LegacyWorld ι τ β) ρ (Except Error Unit)

/-- Every call before its first operation. A call run again is another call. -/
def launch (calls : ρ → Call ι τ) : RollerConfig ι τ ρ β :=
  ⟨{ blobs := held }, fun r => .start ((calls r).prog F held)⟩

/-- What one recovery leaves that runs alone on a store that does not fail. -/
def recovered : LegacyWorld ι τ β :=
  ((Legacy.recover F).solo node (fun _ => {}) 0 { blobs := held }).state

end Calls

section Payloads

variable (F : Files β) (held : Blobs (Key ι τ) (Blob ι τ β))

/-- A payload staged beside its record. -/
def Staged (txn : τ) (name : Name ι) (blob : Blob ι τ β) : Prop :=
  ∃ record, committedRecord held txn = some record ∧ record.inline = [] ∧
    held.lookup (.staging txn name) = some blob

/-- A payload that rides in its record. -/
def Inline (txn : τ) (name : Name ι) (blob : Blob ι τ β) : Prop :=
  ∃ record hexed bytes, committedRecord held txn = some record ∧ (name, hexed) ∈ record.inline ∧
    hexDecode hexed = some bytes ∧ blob = .bytes bytes

def Carried (txn : τ) (name : Name ι) (blob : Blob ι τ β) : Prop :=
  Staged held txn name blob ∨ Inline held txn name blob

theorem Carried.committed {held : Blobs (Key ι τ) (Blob ι τ β)} {txn : τ} {name : Name ι}
    {blob : Blob ι τ β} (hc : Carried held txn name blob) :
    ∃ record, committedRecord held txn = some record := by
  obtain ⟨record, hrecord, _⟩ | ⟨record, _, _, hrecord, _⟩ := hc
  · exact ⟨record, hrecord⟩
  · exact ⟨record, hrecord⟩

/-- Committed records, as ships leave them: each under its own id, and no two payloads of one object
at one version. -/
structure Committed : Prop where
  named : ∀ txn record, committedRecord held txn = some record → record.txnId = txn
  snapshots : ∀ txn txn' object blob blob', Carried held txn ⟨object, .snap⟩ blob →
    Carried held txn' ⟨object, .snap⟩ blob' → F.counter blob = F.counter blob' → blob = blob'
  deltas : ∀ txn txn' object counter blob blob', Carried held txn ⟨object, .delta counter⟩ blob →
    Carried held txn' ⟨object, .delta counter⟩ blob' → blob = blob'

/-- The payload is where it belongs, or its base has moved past it. -/
def Reflected (w : LegacyWorld ι τ β) (name : Name ι) (blob : Blob ι τ β) : Prop :=
  match name.kind with
  | .snap => ∃ base, w.get (.base name.object) = some base ∧ F.counter blob ≤ F.counter base
  | .delta counter => w.get (.delta name.object counter) = some blob

def AllReflected (w : LegacyWorld ι τ β) (txn : τ) : Prop :=
  ∀ name blob, Carried held txn name blob → Reflected F w name blob

/-- No base's counter falls. -/
def Rises (w w' : LegacyWorld ι τ β) : Prop :=
  ∀ object base, w.get (.base object) = some base →
    ∃ base', w'.get (.base object) = some base' ∧ F.counter base ≤ F.counter base'

end Payloads

section Invariant

variable (F : Files β) (held : Blobs (Key ι τ) (Blob ι τ β))

/-- Records and staging only ever go, and not before what they carry is reflected; objects hold what
they held or what a record carries, and no base is older than it was. -/
structure Sound (w : LegacyWorld ι τ β) : Prop where
  record : ∀ txn b, w.get (.record txn) = some b → held.lookup (.record txn) = some b
  rolled : ∀ txn, w.get (.record txn) = none → AllReflected F held w txn
  staged : ∀ txn name b, w.get (.staging txn name) = some b →
    held.lookup (.staging txn name) = some b
  kept : ∀ txn name blob, Staged held txn name blob →
    w.get (.staging txn name) = some blob ∨ Reflected F w name blob
  floor : Rises F { blobs := held } w
  base : ∀ object b, w.get (.base object) = some b → held.lookup (.base object) = some b ∨
    (∃ txn, Carried held txn ⟨object, .snap⟩ b) ∧
      ∀ old, held.lookup (.base object) = some old → F.counter old < F.counter b
  delta : ∀ object counter, (∀ txn blob, ¬ Carried held txn ⟨object, .delta counter⟩ blob) →
    w.get (.delta object counter) = held.lookup (.delta object counter)

/-- What every operation keeps. -/
structure Rolls (w w' : LegacyWorld ι τ β) : Prop where
  sound : Sound F held w → Sound F held w'
  rises : Rises F w w'
  reflected : ∀ txn name blob, Carried held txn name blob → Reflected F w name blob →
    Reflected F w' name blob

variable {F held}

theorem Rises.refl (w : LegacyWorld ι τ β) : Rises F w w := fun _ base h => ⟨base, h, le_rfl⟩

theorem Rises.trans {w w' w'' : LegacyWorld ι τ β} (h : Rises F w w') (h' : Rises F w' w'') :
    Rises F w w'' := by
  intro object base hbase
  obtain ⟨base', hbase', hle⟩ := h object base hbase
  obtain ⟨base'', hbase'', hle'⟩ := h' object base' hbase'
  exact ⟨base'', hbase'', hle.trans hle'⟩

theorem Rolls.trans {w w' w'' : LegacyWorld ι τ β} (h : Rolls F held w w')
    (h' : Rolls F held w' w'') : Rolls F held w w'' where
  sound hs := h'.sound (h.sound hs)
  rises := h.rises.trans h'.rises
  reflected txn name blob hc hr := h'.reflected txn name blob hc (h.reflected txn name blob hc hr)

instance : IsTrans (LegacyWorld ι τ β) (Rolls F held) := ⟨fun _ _ _ => Rolls.trans⟩

instance : Std.Refl (Rolls (ι := ι) (τ := τ) F held) :=
  ⟨fun w => ⟨id, .refl w, fun _ _ _ _ => id⟩⟩

theorem Rolls.refl (w : LegacyWorld ι τ β) : Rolls F held w w := Std.Refl.refl w

theorem AllReflected.rolls {w w' : LegacyWorld ι τ β} (h : Rolls F held w w') {txn : τ}
    (ha : AllReflected F held w txn) : AllReflected F held w' txn :=
  fun name blob hc => h.reflected txn name blob hc (ha name blob hc)

theorem sound_start (notes : List (Note ι τ)) : Sound F held { blobs := held, notes := notes } where
  record _ _ h := h
  rolled txn hnone name blob hc := by
    obtain ⟨record, hrecord⟩ := hc.committed
    change held.lookup (.record txn) = none at hnone
    rw [committedRecord, hnone] at hrecord
    cases hrecord
  staged _ _ _ h := h
  kept _ _ _ := fun ⟨_, _, _, h⟩ => .inl h
  floor := fun _ base h => ⟨base, h, le_rfl⟩
  base _ _ h := .inl h
  delta _ _ _ := rfl

/-- Where records and staging are left alone, it is enough to look after the objects. -/
theorem rolls_objects {w w' : LegacyWorld ι τ β}
    (hrecord : ∀ txn, w'.get (.record txn) = w.get (.record txn))
    (hstaging : ∀ txn name, w'.get (.staging txn name) = w.get (.staging txn name))
    (hrises : Rises F w w')
    (hrefl : ∀ txn name blob, Carried held txn name blob → Reflected F w name blob →
      Reflected F w' name blob)
    (hbase : Sound F held w → ∀ object b, w'.get (.base object) = some b →
      held.lookup (.base object) = some b ∨ (∃ txn, Carried held txn ⟨object, .snap⟩ b) ∧
        ∀ old, held.lookup (.base object) = some old → F.counter old < F.counter b)
    (hdelta : ∀ object counter, (∀ txn blob, ¬ Carried held txn ⟨object, .delta counter⟩ blob) →
      w'.get (.delta object counter) = w.get (.delta object counter)) :
    Rolls F held w w' := by
  refine ⟨fun hs => ⟨?_, ?_, ?_, ?_, hs.floor.trans hrises, hbase hs, ?_⟩, hrises, hrefl⟩
  · intro txn b hb
    exact hs.record txn b (hrecord txn ▸ hb)
  · intro txn hnone name blob hc
    exact hrefl txn name blob hc (hs.rolled txn (hrecord txn ▸ hnone) name blob hc)
  · intro txn name b hb
    exact hs.staged txn name b (hstaging txn name ▸ hb)
  · intro txn name blob hc
    rw [hstaging]
    exact (hs.kept txn name blob hc).imp_right (hrefl txn name blob (.inl hc))
  · intro object counter hnone
    rw [hdelta object counter hnone]
    exact hs.delta object counter hnone

/-- A carried snapshot, newer than what the store first held and not older than what it replaces. -/
theorem rolls_put_base {w : LegacyWorld ι τ β} {txn : τ} {object : ι} {blob : Blob ι τ β}
    (hc : Carried held txn ⟨object, .snap⟩ blob)
    (hnew : ∀ old, held.lookup (.base object) = some old → F.counter old < F.counter blob)
    (hforward : ∀ base, w.get (.base object) = some base → F.counter base ≤ F.counter blob) :
    Rolls F held w (w.effect (.put (.base object) blob)) := by
  have hrises : Rises F w (w.effect (.put (.base object) blob)) := by
    intro o base hbase
    by_cases ho : o = object
    · subst ho
      exact ⟨blob, by simp [World.get_put], hforward base hbase⟩
    · exact ⟨base, by simpa [World.get_put, ho] using hbase, le_rfl⟩
  refine rolls_objects (by simp [World.get_put]) (by simp [World.get_put]) hrises ?_ ?_ ?_
  · rintro t ⟨o, kind⟩ b _ hrefl
    cases kind with
    | snap =>
      obtain ⟨base, hbase, hle⟩ := hrefl
      obtain ⟨base', hbase', hle'⟩ := hrises o base hbase
      exact ⟨base', hbase', hle.trans hle'⟩
    | delta counter => simpa [Reflected, World.get_put] using hrefl
  · intro hs o b hb
    rw [World.get_put] at hb
    split at hb
    · next ho =>
      cases ho
      cases hb
      exact .inr ⟨⟨txn, hc⟩, hnew⟩
    · exact hs.base o b hb
  · intro o counter _
    simp [World.get_put]

theorem rolls_put_delta (hheld : Committed F held) {w : LegacyWorld ι τ β} {txn : τ} {object : ι}
    {counter : Nat} {blob : Blob ι τ β} (hc : Carried held txn ⟨object, .delta counter⟩ blob) :
    Rolls F held w (w.effect (.put (.delta object counter) blob)) := by
  have hbase : ∀ o, (w.effect (.put (.delta object counter) blob)).get (.base o) =
      w.get (.base o) := by simp [World.get_put]
  refine rolls_objects (by simp [World.get_put]) (by simp [World.get_put]) ?_ ?_ ?_ ?_
  · intro o base h
    exact ⟨base, by rwa [hbase], le_rfl⟩
  · rintro t ⟨o, kind⟩ b hb hrefl
    cases kind with
    | snap => simpa only [Reflected, hbase] using hrefl
    | delta c =>
      change (w.effect _).get (.delta o c) = some b
      rw [World.get_put]
      split
      · next hkey =>
        cases hkey
        exact congrArg some (hheld.deltas txn t object counter blob b hc hb)
      · exact hrefl
  · intro hs o b hb
    exact hs.base o b (hbase o ▸ hb)
  · intro o c hnone
    rw [World.get_put, if_neg]
    rintro hkey
    cases hkey
    exact hnone txn blob hc

/-- Where the objects are left alone, it is enough to look after records and staging. -/
theorem rolls_spent {w w' : LegacyWorld ι τ β}
    (hbase : ∀ object, w'.get (.base object) = w.get (.base object))
    (hdelta : ∀ object counter,
      w'.get (.delta object counter) = w.get (.delta object counter))
    (hrecord : ∀ txn, w'.get (.record txn) = w.get (.record txn) ∨
      w'.get (.record txn) = none ∧ AllReflected F held w txn)
    (hstaging : ∀ txn name, w'.get (.staging txn name) = w.get (.staging txn name) ∨
      w'.get (.staging txn name) = none ∧
        ∀ blob, Staged held txn name blob → Reflected F w name blob) :
    Rolls F held w w' := by
  have hrefl : ∀ name blob, Reflected F w' name blob ↔ Reflected F w name blob := by
    intro name blob
    simp only [Reflected, hbase, hdelta]
  have hrises : Rises F w w' := fun o base h => ⟨base, by rwa [hbase], le_rfl⟩
  refine ⟨fun hs => ⟨?_, ?_, ?_, ?_, hs.floor.trans hrises, ?_, ?_⟩, hrises,
    fun _ name blob _ => (hrefl name blob).mpr⟩
  · intro txn b hb
    rcases hrecord txn with h | ⟨h, _⟩
    · exact hs.record txn b (h ▸ hb)
    · rw [h] at hb
      cases hb
  · intro txn hnone name blob hc
    rw [hrefl]
    rcases hrecord txn with h | ⟨_, h⟩
    · exact hs.rolled txn (h ▸ hnone) name blob hc
    · exact h name blob hc
  · intro txn name b hb
    rcases hstaging txn name with h | ⟨h, _⟩
    · exact hs.staged txn name b (h ▸ hb)
    · rw [h] at hb
      cases hb
  · intro txn name blob hc
    rw [hrefl]
    rcases hstaging txn name with h | ⟨_, h⟩
    · rw [h]
      exact hs.kept txn name blob hc
    · exact .inr (h blob hc)
  · intro o b hb
    exact hs.base o b (hbase o ▸ hb)
  · intro o counter hnone
    rw [hdelta]
    exact hs.delta o counter hnone

/-- A staged blob that no record stands for, or that is reflected. -/
theorem rolls_delete_staging {w : LegacyWorld ι τ β} {txn : τ} {name : Name ι}
    (hspent : ∀ blob, Staged held txn name blob → Reflected F w name blob) :
    Rolls F held w (w.effect (.delete (.staging txn name))) := by
  refine rolls_spent (by simp [World.get_delete]) (by simp [World.get_delete])
    (fun t => .inl (by simp [World.get_delete])) fun t n => ?_
  by_cases hkey : t = txn ∧ n = name
  · obtain ⟨rfl, rfl⟩ := hkey
    exact .inr ⟨by simp [World.get_delete], hspent⟩
  · exact .inl (by rw [World.get_delete, if_neg (by simpa using hkey)])

/-- The record of a transaction that is reflected in full. -/
theorem rolls_delete_record {w : LegacyWorld ι τ β} {txn : τ} (hall : AllReflected F held w txn) :
    Rolls F held w (w.effect (.delete (.record txn))) := by
  refine rolls_spent (by simp [World.get_delete]) (by simp [World.get_delete])
    (fun t => ?_) fun t n => .inl (by simp [World.get_delete])
  by_cases ht : t = txn
  · subst ht
    exact .inr ⟨by simp [World.get_delete], hall⟩
  · exact .inl (by simp [World.get_delete, ht])

theorem rolls_note {w : LegacyWorld ι τ β} (n : Note ι τ) :
    Rolls F held w { w with notes := n :: w.notes } :=
  rolls_spent (fun _ => rfl) (fun _ _ => rfl) (fun _ => .inl rfl) fun _ _ => .inl rfl

/-- Every record is reflected. -/
def Settled (F : Files β) (held : Blobs (Key ι τ) (Blob ι τ β)) (w : LegacyWorld ι τ β) : Prop :=
  Sound F held w ∧ ∀ txn, AllReflected F held w txn

theorem Settled.rises {w w' : LegacyWorld ι τ β} (hs : Sound F held w)
    (hs' : Settled F held w') : Rises F w w' := by
  intro object b hb
  rcases hs.base object b hb with h | ⟨⟨txn, hc⟩, _⟩
  · exact hs'.1.floor object b h
  · exact hs'.2 txn _ b hc

theorem Settled.base (hheld : Committed F held) {w w' : LegacyWorld ι τ β}
    (hs : Settled F held w) (hs' : Settled F held w') {object : ι} {b : Blob ι τ β}
    (hb : w.get (.base object) = some b) : w'.get (.base object) = some b := by
  obtain ⟨b', hb', hle⟩ := hs'.rises hs.1 object b hb
  obtain ⟨c, hc, hle'⟩ := hs.rises hs'.1 object b' hb'
  obtain rfl : b = c := Option.some.inj (hb.symm.trans hc)
  have hcounter : F.counter b = F.counter b' := le_antisymm hle hle'
  suffices b = b' from this ▸ hb'
  rcases hs.1.base object b hb with hold | ⟨⟨txn, hcarried⟩, hnew⟩
  · rcases hs'.1.base object b' hb' with hold' | ⟨_, hnew'⟩
    · exact Option.some.inj (hold.symm.trans hold')
    · have hlt := hnew' b hold
      omega
  · rcases hs'.1.base object b' hb' with hold' | ⟨⟨txn', hcarried'⟩, _⟩
    · have hlt := hnew b' hold'
      omega
    · exact hheld.snapshots txn txn' object b b' hcarried hcarried' hcounter

theorem Settled.delta {w w' : LegacyWorld ι τ β} (hs : Settled F held w)
    (hs' : Settled F held w') (object : ι) (counter : Nat) :
    w.get (.delta object counter) = w'.get (.delta object counter) := by
  by_cases hc : ∃ txn blob, Carried held txn ⟨object, .delta counter⟩ blob
  · obtain ⟨txn, blob, hc⟩ := hc
    have h : w.get (.delta object counter) = some blob := hs.2 txn _ blob hc
    have h' : w'.get (.delta object counter) = some blob := hs'.2 txn _ blob hc
    rw [h, h']
  · have hnone : ∀ txn blob, ¬ Carried held txn ⟨object, .delta counter⟩ blob :=
      fun txn blob h => hc ⟨txn, blob, h⟩
    rw [hs.1.delta object counter hnone, hs'.1.delta object counter hnone]

/-- The records settle every object. -/
theorem Settled.unique (hheld : Committed F held) {w w' : LegacyWorld ι τ β}
    (hs : Settled F held w) (hs' : Settled F held w') (key : Key ι τ)
    (hkey : objectsPrefix key = true) : w.get key = w'.get key := by
  cases key with
  | base object =>
    refine Option.ext fun b => ⟨fun h => ?_, fun h => ?_⟩
    · exact hs.base hheld hs' h
    · exact hs'.base hheld hs h
  | delta object counter => exact hs.delta hs' object counter
  | staging txn name => cases hkey
  | record txn => cases hkey

end Invariant

end Fafo.Legacy.Rollers
