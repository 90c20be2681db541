import Fafo.Legacy
import Fafo.StoreRules

/-! What ship tasks and recoveries keep of the boats whose record was put. -/
namespace Fafo.Legacy

open Interleave

variable {ι τ ρ β α : Type}

/-- The file version an item carries. -/
def ShipItem.counter (F : Files β) (item : ShipItem ι β) : Nat :=
  match item.payload with
  | .snapshot bytes _ => F.changeCounter bytes
  | .delta counter _ => counter

section Invariant

variable [DecidableEq ι] [DecidableEq τ] (F : Files β) (fleet : τ → Boat ι β)

/-- The item's base has reached its counter, or its delta is there. -/
def Reflected (w : LegacyWorld ι τ β) (item : ShipItem ι β) : Prop :=
  (∃ base, w.get (.base item.object) = some base ∧ item.counter F ≤ F.counter base) ∨
    ∃ counter bytes, item.payload = .delta counter bytes ∧
      (w.get (.delta item.object counter)).isSome

def AllReflected (w : LegacyWorld ι τ β) (txn : τ) : Prop :=
  ∀ item ∈ (fleet txn).items, Reflected F w item

/-- The boat's record is there, or no longer needed. -/
def Standing (w : LegacyWorld ι τ β) (txn : τ) : Prop :=
  (w.get (.record txn)).isSome ∨ AllReflected F fleet w txn

/-- Records and staged blobs are those of their boats; what a staged boat's record stands for is
reflected or still staged; and an acked boat stands. -/
structure Sound (w : LegacyWorld ι τ β) : Prop where
  record : ∀ txn b, w.get (.record txn) = some b → b = .record ((fleet txn).record F txn)
  staged : ∀ txn name b, w.get (.staging txn name) = some b →
    ∃ item ∈ (fleet txn).items, item.name = name ∧ b = .bytes item.bytes
  kept : ∀ txn, (w.get (.record txn)).isSome → (fleet txn).inline F = false →
    ∀ item ∈ (fleet txn).items, Reflected F w item ∨ (w.get (item.stagingKey txn)).isSome
  acked : ∀ txn, .answered txn none ∈ w.notes → Standing F fleet w txn

/-- What every operation keeps. -/
structure Evolves (w w' : LegacyWorld ι τ β) : Prop where
  sound : Sound F fleet w → Sound F fleet w'
  reflected : ∀ item, Reflected F w item → Reflected F w' item
  standing : ∀ txn, Standing F fleet w txn → Standing F fleet w' txn

variable {F fleet}

theorem Evolves.trans {w w' w'' : LegacyWorld ι τ β} (h : Evolves F fleet w w')
    (h' : Evolves F fleet w' w'') : Evolves F fleet w w'' where
  sound hs := h'.sound (h.sound hs)
  reflected item hi := h'.reflected item (h.reflected item hi)
  standing txn ht := h'.standing txn (h.standing txn ht)

instance : IsTrans (LegacyWorld ι τ β) (Evolves F fleet) := ⟨fun _ _ _ => Evolves.trans⟩

instance : Std.Refl (Evolves (ι := ι) (τ := τ) F fleet) := ⟨fun _ => ⟨id, fun _ => id, fun _ => id⟩⟩

theorem Evolves.refl (w : LegacyWorld ι τ β) : Evolves F fleet w w := Std.Refl.refl w

theorem AllReflected.evolves {w w' : LegacyWorld ι τ β} (h : Evolves F fleet w w') {txn : τ}
    (ha : AllReflected F fleet w txn) : AllReflected F fleet w' txn :=
  fun item hmem => h.reflected item (ha item hmem)

theorem Reflected.congr {w w' : LegacyWorld ι τ β}
    (hbase : ∀ o, w'.get (.base o) = w.get (.base o))
    (hdelta : ∀ o c, w'.get (.delta o c) = w.get (.delta o c)) (item : ShipItem ι β) :
    Reflected F w' item ↔ Reflected F w item := by
  simp only [Reflected, hbase, hdelta]

/-- Where records, staging and notes are left alone, reflecting no less is enough. -/
theorem evolves_objects {w w' : LegacyWorld ι τ β}
    (hrecord : ∀ txn, w'.get (.record txn) = w.get (.record txn))
    (hstaging : ∀ txn name, w'.get (.staging txn name) = w.get (.staging txn name))
    (hnotes : w'.notes = w.notes) (hrefl : ∀ item, Reflected F w item → Reflected F w' item) :
    Evolves F fleet w w' := by
  have hstanding : ∀ txn, Standing F fleet w txn → Standing F fleet w' txn := by
    intro txn ht
    refine ht.imp (fun hrec => ?_) fun hall item hmem => hrefl item (hall item hmem)
    rwa [hrecord]
  refine ⟨fun hs => ⟨?_, ?_, ?_, ?_⟩, hrefl, hstanding⟩
  · intro txn b hb
    exact hs.record txn b (hrecord txn ▸ hb)
  · intro txn name b hb
    exact hs.staged txn name b (hstaging txn name ▸ hb)
  · intro txn hrec hstage item hmem
    refine (hs.kept txn (hrecord txn ▸ hrec) hstage item hmem).imp (hrefl item) fun h => ?_
    rwa [ShipItem.stagingKey, hstaging]
  · intro txn hmem
    exact hstanding txn (hs.acked txn (hnotes ▸ hmem))

/-- A base that is not older than the one it replaces. -/
theorem evolves_put_base {w : LegacyWorld ι τ β} {object : ι} {blob : Blob ι τ β}
    (h : ∀ held, w.get (.base object) = some held → F.counter held ≤ F.counter blob) :
    Evolves F fleet w (w.effect (.put (.base object) blob)) := by
  refine evolves_objects (by simp [World.get_put]) (by simp [World.get_put]) rfl ?_
  rintro item (⟨base, hbase, hle⟩ | ⟨counter, bytes, hpayload, hdelta⟩)
  · by_cases ho : item.object = object
    · subst ho
      refine .inl ⟨blob, by simp [World.get_put], hle.trans (h base hbase)⟩
    · exact .inl ⟨base, by simpa [World.get_put, ho] using hbase, hle⟩
  · exact .inr ⟨counter, bytes, hpayload, by simpa [World.get_put] using hdelta⟩

theorem evolves_put_delta {w : LegacyWorld ι τ β} (object : ι) (counter : Nat)
    (blob : Blob ι τ β) : Evolves F fleet w (w.effect (.put (.delta object counter) blob)) := by
  refine evolves_objects (by simp [World.get_put]) (by simp [World.get_put]) rfl ?_
  rintro item (⟨base, hbase, hle⟩ | ⟨c, bytes, hpayload, hdelta⟩)
  · exact .inl ⟨base, by simpa [World.get_put] using hbase, hle⟩
  · refine .inr ⟨c, bytes, hpayload, ?_⟩
    rw [World.get_put]
    split
    · rfl
    · exact hdelta

/-- A delta that the base has left behind. -/
theorem evolves_delete_delta {w : LegacyWorld ι τ β} {object : ι} {counter : Nat}
    {base : Blob ι τ β} (hbase : w.get (.base object) = some base)
    (hle : counter ≤ F.counter base) :
    Evolves F fleet w (w.effect (.delete (.delta object counter))) := by
  refine evolves_objects (by simp [World.get_delete]) (by simp [World.get_delete]) rfl ?_
  rintro item (⟨b, hb, hleb⟩ | ⟨c, bytes, hpayload, hdelta⟩)
  · exact .inl ⟨b, by simpa [World.get_delete] using hb, hleb⟩
  · by_cases hsame : item.object = object ∧ c = counter
    · obtain ⟨rfl, rfl⟩ := hsame
      refine .inl ⟨base, by simpa [World.get_delete] using hbase, ?_⟩
      rwa [ShipItem.counter, hpayload]
    · refine .inr ⟨c, bytes, hpayload, ?_⟩
      rw [World.get_delete, if_neg (by simpa using hsame)]
      exact hdelta

theorem evolves_put_staging {w : LegacyWorld ι τ β} {txn : τ} {item : ShipItem ι β}
    (hmem : item ∈ (fleet txn).items) :
    Evolves F fleet w (w.effect (.put (item.stagingKey txn) (.bytes item.bytes))) := by
  have hrefl : ∀ i, Reflected F (w.effect (.put (item.stagingKey txn) (.bytes item.bytes))) i ↔
      Reflected F w i :=
    Reflected.congr (by simp [World.get_put, ShipItem.stagingKey])
      (by simp [World.get_put, ShipItem.stagingKey])
  have hrecord : ∀ t, (w.effect (.put (item.stagingKey txn) (.bytes item.bytes))).get (.record t) =
      w.get (.record t) := by simp [World.get_put, ShipItem.stagingKey]
  have hstanding : ∀ t, Standing F fleet (w.effect (.put (item.stagingKey txn)
      (.bytes item.bytes))) t ↔ Standing F fleet w t := by
    simp only [Standing, AllReflected, hrecord, hrefl, implies_true]
  refine ⟨fun hs => ⟨?_, ?_, ?_, ?_⟩, fun i => (hrefl i).mpr, fun t => (hstanding t).mpr⟩
  · intro t b hb
    exact hs.record t b (hrecord t ▸ hb)
  · intro t name b hb
    rw [World.get_put] at hb
    split at hb
    · next heq =>
      cases heq
      cases hb
      exact ⟨item, hmem, rfl, rfl⟩
    · exact hs.staged t name b hb
  · intro t hrec hstage i hi
    refine (hs.kept t (hrecord t ▸ hrec) hstage i hi).imp (hrefl i).mpr fun h => ?_
    rw [World.get_put]
    split
    · rfl
    · exact h
  · exact fun t hacked => (hstanding t).mpr (hs.acked t hacked)

/-- A record put while its payload is inline, or staged in full. -/
theorem evolves_put_record {w : LegacyWorld ι τ β} {txn : τ}
    (hwhole : (fleet txn).inline F = false →
      ∀ item ∈ (fleet txn).items, (w.get (item.stagingKey txn)).isSome) :
    Evolves F fleet w
      (w.effect (.put (.record txn) (.record ((fleet txn).record F txn)))) := by
  have hrefl : ∀ i, Reflected F (w.effect (.put (.record txn)
      (.record ((fleet txn).record F txn)))) i ↔ Reflected F w i :=
    Reflected.congr (by simp [World.get_put]) (by simp [World.get_put])
  have hstanding : ∀ t, Standing F fleet w t → Standing F fleet (w.effect (.put (.record txn)
      (.record ((fleet txn).record F txn)))) t := by
    intro t ht
    refine ht.imp (fun hrec => ?_) fun hall i hi => (hrefl i).mpr (hall i hi)
    rw [World.get_put]
    split
    · rfl
    · exact hrec
  refine ⟨fun hs => ⟨?_, ?_, ?_, ?_⟩, fun i => (hrefl i).mpr, hstanding⟩
  · intro t b hb
    rw [World.get_put] at hb
    split at hb
    · next heq =>
      cases heq
      exact (Option.some.inj hb).symm
    · exact hs.record t b hb
  · intro t name b hb
    exact hs.staged t name b (by simpa [World.get_put] using hb)
  · intro t hrec hstage i hi
    rw [World.get_put, if_neg (by simp [ShipItem.stagingKey]), hrefl]
    by_cases ht : t = txn
    · subst ht
      exact .inr (hwhole hstage i hi)
    · rw [World.get_put, if_neg (by simpa using ht)] at hrec
      exact hs.kept t hrec hstage i hi
  · exact fun t hacked => hstanding t (hs.acked t hacked)

/-- A staged blob whose boat's record is not there, or whose item is reflected. -/
theorem evolves_delete_staging {w : LegacyWorld ι τ β} {txn : τ} {name : Name ι}
    (hspent : (w.get (.record txn)).isSome → (w.get (.staging txn name)).isSome →
      ∀ item ∈ (fleet txn).items, item.name = name → Reflected F w item) :
    Evolves F fleet w (w.effect (.delete (.staging txn name))) := by
  have hrefl : ∀ i, Reflected F (w.effect (.delete (.staging txn name))) i ↔ Reflected F w i :=
    Reflected.congr (by simp [World.get_delete]) (by simp [World.get_delete])
  have hrecord : ∀ t, (w.effect (.delete (.staging txn name))).get (.record t) =
      w.get (.record t) := by simp [World.get_delete]
  have hstanding : ∀ t, Standing F fleet (w.effect (.delete (.staging txn name))) t ↔
      Standing F fleet w t := by
    simp only [Standing, AllReflected, hrecord, hrefl, implies_true]
  refine ⟨fun hs => ⟨?_, ?_, ?_, ?_⟩, fun i => (hrefl i).mpr, fun t => (hstanding t).mpr⟩
  · intro t b hb
    exact hs.record t b (hrecord t ▸ hb)
  · intro t n b hb
    rw [World.get_delete] at hb
    split at hb
    · cases hb
    · exact hs.staged t n b hb
  · intro t hrec hstage i hi
    rw [hrecord] at hrec
    rw [hrefl]
    rcases hs.kept t hrec hstage i hi with h | h
    · exact .inl h
    · by_cases hsame : i.stagingKey t = .staging txn name
      · obtain ⟨rfl, rfl⟩ : t = txn ∧ i.name = name := by
          simpa [ShipItem.stagingKey] using hsame
        exact .inl (hspent hrec h i hi rfl)
      · rw [World.get_delete, if_neg hsame]
        exact .inr h
  · exact fun t hacked => (hstanding t).mpr (hs.acked t hacked)

/-- The record of a boat that is reflected in full. -/
theorem evolves_delete_record {w : LegacyWorld ι τ β} {txn : τ}
    (hall : AllReflected F fleet w txn) :
    Evolves F fleet w (w.effect (.delete (.record txn))) := by
  have hrefl : ∀ i, Reflected F (w.effect (.delete (.record txn))) i ↔ Reflected F w i :=
    Reflected.congr (by simp [World.get_delete]) (by simp [World.get_delete])
  have hkeep : ∀ t, t ≠ txn → (w.effect (.delete (.record txn))).get (.record t) =
      w.get (.record t) := fun t ht => by simp [World.get_delete, ht]
  have hstanding : ∀ t, Standing F fleet w t →
      Standing F fleet (w.effect (.delete (.record txn))) t := by
    intro t ht
    by_cases heq : t = txn
    · subst heq
      exact .inr fun i hi => (hrefl i).mpr (hall i hi)
    · refine ht.imp (fun hrec => ?_) fun h i hi => (hrefl i).mpr (h i hi)
      rwa [hkeep t heq]
  refine ⟨fun hs => ⟨?_, ?_, ?_, ?_⟩, fun i => (hrefl i).mpr, hstanding⟩
  · intro t b hb
    rw [World.get_delete] at hb
    split at hb
    · cases hb
    · exact hs.record t b hb
  · intro t name b hb
    exact hs.staged t name b (by simpa [World.get_delete] using hb)
  · intro t hrec hstage i hi
    rw [World.get_delete] at hrec
    split at hrec
    · cases hrec
    · rw [hrefl, World.get_delete, if_neg (by simp [ShipItem.stagingKey])]
      exact hs.kept t hrec hstage i hi
  · exact fun t hacked => hstanding t (hs.acked t hacked)

/-- A note; an ack only for a boat that stands. -/
theorem evolves_note {w : LegacyWorld ι τ β} {n : Note ι τ}
    (h : ∀ txn, n = .answered txn none → Standing F fleet w txn) :
    Evolves F fleet w { w with notes := n :: w.notes } := by
  refine ⟨fun hs => ⟨hs.record, hs.staged, hs.kept, fun txn hmem => ?_⟩, fun _ => id, fun _ => id⟩
  rcases List.mem_cons.mp hmem with heq | hmem
  · exact h txn heq.symm
  · exact hs.acked txn hmem

end Invariant

end Fafo.Legacy
