import Fafo.Rollers

/-! What each roller-forward achieves while any number of others run. -/
namespace Fafo.Legacy.Rollers

open Interleave

variable {ι τ β α : Type} [DecidableEq ι] [DecidableEq τ]

/-- When the put of a promotion lands, the base is still the one it read, or has not been raised
past what it puts. -/
def Fresh (F : Files β) (e : Env)
    (last : Option (Event (nodeSig (Key ι τ) (Blob ι τ β) (Note ι τ))))
    (o : NodeOp (Key ι τ) (Blob ι τ β) (Note ι τ)) (w : LegacyWorld ι τ β) : Prop :=
  match last, o with
  | some ⟨.store (.get key), .ok read⟩, .store (.put (.base object) blob) =>
      key = .base object → e.fault ≠ .failed → w.get key = read ∨
        ∀ base, w.get key = some base → F.counter base ≤ F.counter blob
  | _, _ => True

section Specs

variable {F : Files β} {held : Blobs (Key ι τ) (Blob ι τ β)}

abbrev Runs (F : Files β) (held : Blobs (Key ι τ) (Blob ι τ β))
    (Q : α → LegacyWorld ι τ β → Prop) (p : LegacyTask ι τ β α) (w : LegacyWorld ι τ β) : Prop :=
  Does node (Fresh F) (Rolls F held) (Rolls F held) Q p w

theorem runs_promoteStaged (hheld : Committed F held) {txn : τ} {name : Name ι}
    {blob : Blob ι τ β} (hc : Carried held txn name blob) {w : LegacyWorld ι τ β}
    (hs : Sound F held w) :
    Runs F held (fun r t => r = .ok () → Reflected F t name blob) (promoteStaged F name blob)
      w := by
  obtain ⟨object, kind⟩ := name
  cases kind with
  | delta counter =>
    refine StoreOp.does (fun t _ _ _ _ _ => rolls_put_delta hheld hc) fun r u hu hr => ?_
    refine Does.ret fun x hx hok => hx.reflected txn _ blob hc ?_
    obtain ⟨t, _, _, rfl⟩ := hr () hok
    simp [Reflected, World.get_put]
  | snap =>
    intro last
    refine StoreOp.sat (fun t _ _ _ _ => .refl t) fun r u hu hr => ?_
    cases r with
    | error e => exact fun _ _ hok => by cases hok
    | ok read =>
      obtain ⟨t, ht, rfl, rfl⟩ := hr read rfl
      have hst : Sound F held t := ht.sound hs
      change Sat node _ _ _ _ (if (t.get (.base object)).any _ then _ else _) _ t
      split
      · next hnewer =>
        obtain ⟨base, hbase, hle⟩ := (Option.any_eq_true _ _).mp hnewer
        refine fun x hx _ => hx.reflected txn _ blob hc ?_
        exact ⟨base, hbase, of_decide_eq_true hle⟩
      · next hnewer =>
        have hread : ∀ base, t.get (.base object) = some base →
            F.counter base < F.counter blob := by
          intro base hbase
          simpa [hbase] using hnewer
        -- the base was no older when it was read than when the rollers began
        have hnew : ∀ old, held.lookup (.base object) = some old →
            F.counter old < F.counter blob := by
          intro old hold
          obtain ⟨base, hbase, hle⟩ := hst.floor object old hold
          exact hle.trans_lt (hread base hbase)
        refine StoreOp.sat (fun x e _ hfresh hfault => rolls_put_base hc hnew ?_) ?_
        · intro base hbase
          rcases hfresh rfl hfault with heq | hle
          · exact (hread base (heq.symm.trans hbase)).le
          · exact hle base hbase
        · refine fun r u hu hr x hx hok => hx.reflected txn _ blob hc ?_
          obtain ⟨y, _, _, rfl⟩ := hr () hok
          exact ⟨blob, by simp [World.get_put], le_rfl⟩

theorem runs_rollStaged (hheld : Committed F held) {txn : τ} {record : TxnRecord ι τ β}
    (hrecord : committedRecord held txn = some record) (hinline : record.inline = [])
    (keys : List (Key ι τ)) {w : LegacyWorld ι τ β} (hs : Sound F held w)
    (hkeys : ∀ key ∈ keys, ∃ name, key = .staging txn name)
    (hleft : ∀ name blob, Staged held txn name blob →
      Reflected F w name blob ∨ .staging txn name ∈ keys) :
    Runs F held (fun r t => r = .ok () → ∀ name blob, Staged held txn name blob →
      Reflected F t name blob) (rollStaged F keys) w := by
  induction keys generalizing w with
  | nil =>
    refine Does.ret fun t ht _ name blob hc => ht.reflected txn name blob (.inl hc) ?_
    exact (hleft name blob hc).resolve_right (by simp)
  | cons key keys ih =>
    obtain ⟨name, rfl⟩ := hkeys key List.mem_cons_self
    refine Store.does_get (fun t ht => ?_) nofun
    have hst : Sound F held t := ht.sound hs
    -- what is staged under the first name is reflected before it is deleted
    have hdelete : ∀ u, Rolls F held t u →
        (∀ blob, Staged held txn name blob → Reflected F u name blob) →
        Runs F held (fun r t => r = .ok () → ∀ name blob, Staged held txn name blob →
          Reflected F t name blob)
          ((Store.delete (.staging txn name)).attempt fun _ => rollStaged F keys) u := by
      intro u hu hspent
      refine Store.does_delete (fun x hx => rolls_delete_staging fun blob hc => ?_)
        (fun x hx => ?_) nofun
      · exact hx.reflected txn name blob (.inl hc) (hspent blob hc)
      · have hwx := (ht.trans hu).trans hx
        refine ih (hwx.sound hs) (fun key hkey => hkeys key (List.mem_cons_of_mem _ hkey))
          fun other blob hc => ?_
        rcases hleft other blob hc with h | h
        · exact .inl (hwx.reflected txn other blob (.inl hc) h)
        · rcases List.mem_cons.mp h with heq | h
          · cases heq
            exact .inl (hx.reflected txn name blob (.inl hc) (hspent blob hc))
          · exact .inr h
    cases hget : t.get (.staging txn name) with
    | none =>
      refine Does.attempt (Does.ret fun u hu => ⟨fun _ _ => hdelete u hu ?_, nofun⟩)
      intro blob hc
      refine hu.reflected txn name blob (.inl hc) ?_
      exact (hst.kept txn name blob hc).resolve_left (by simp [hget])
    | some blob =>
      have hlookup : held.lookup (.staging txn name) = some blob := hst.staged txn name blob hget
      have hc : Carried held txn name blob := .inl ⟨record, hrecord, hinline, hlookup⟩
      refine Does.attempt ((runs_promoteStaged hheld hc hst).since.mono ?_)
      rintro r u ⟨hr, hu⟩
      refine ⟨fun _ hok => hdelete u hu ?_, fun _ herr _ _ hok => by cases hok⟩
      rintro other ⟨_, _, _, hother⟩
      obtain rfl : blob = other := Option.some.inj (hlookup.symm.trans hother)
      exact hr hok

theorem runs_rollInline (hheld : Committed F held) {txn : τ} {record : TxnRecord ι τ β}
    (hrecord : committedRecord held txn = some record) (entries : List (Name ι × Hex β))
    (hentries : ∀ entry ∈ entries, entry ∈ record.inline) {w : LegacyWorld ι τ β}
    (hs : Sound F held w) :
    Runs F held (fun r t => r = .ok () → ∀ name hexed bytes, (name, hexed) ∈ entries →
      hexDecode hexed = some bytes → Reflected F t name (.bytes bytes)) (rollInline F entries)
      w := by
  induction entries generalizing w with
  | nil => exact Does.ret fun _ _ _ _ _ _ hmem => by cases hmem
  | cons entry entries ih =>
    obtain ⟨name, hexed⟩ := entry
    obtain ⟨hmem, hentries'⟩ := List.forall_mem_cons.mp hentries
    have hcarried : ∀ bytes, hexDecode hexed = some bytes →
        Carried held txn name (.bytes bytes) := fun bytes hbytes =>
      .inr ⟨record, hexed, bytes, hrecord, hmem, hbytes, rfl⟩
    -- the other entries are rolled once what the first one carries is reflected
    have htail : ∀ t, Rolls F held w t →
        (∀ bytes, hexDecode hexed = some bytes → Reflected F t name (.bytes bytes)) →
        Runs F held (fun r t => r = .ok () → ∀ other hexed' bytes,
          (other, hexed') ∈ (name, hexed) :: entries → hexDecode hexed' = some bytes →
            Reflected F t other (.bytes bytes)) (rollInline F entries) t := by
      intro t ht hr
      refine (ih hentries' (ht.sound hs)).since.mono ?_
      rintro r u ⟨hrest, hu⟩ hok other hexed' bytes hmem' hbytes
      rcases List.mem_cons.mp hmem' with heq | hmem'
      · cases heq
        exact hu.reflected txn name _ (hcarried bytes hbytes) (hr bytes hbytes)
      · exact hrest hok other hexed' bytes hmem' hbytes
    rw [rollInline]
    refine Does.attempt ?_
    cases hdecode : hexDecode hexed with
    | none =>
      refine Does.ret fun t ht => ⟨fun _ _ => htail t ht ?_, fun _ herr => by cases herr⟩
      intro bytes heq
      rw [hdecode] at heq
      cases heq
    | some blob =>
      refine (runs_promoteStaged hheld (hcarried blob hdecode) hs).since.mono ?_
      rintro r t ⟨hr, ht⟩
      refine ⟨fun _ hok => htail t ht ?_, fun _ herr _ _ hok => by cases hok⟩
      intro bytes heq
      rw [hdecode] at heq
      cases heq
      exact hr hok

theorem runs_rollForward (hheld : Committed F held) {txn : τ} {record : TxnRecord ι τ β}
    (hrecord : committedRecord held txn = some record) {w : LegacyWorld ι τ β}
    (hs : Sound F held w) :
    Runs F held (fun r t => r = .ok () → AllReflected F held t txn)
      (rollForward F (.record txn) record) w := by
  have hdelete : ∀ t, AllReflected F held t txn →
      Runs F held (fun r t => r = .ok () → AllReflected F held t txn)
        (Store.delete (.record txn)) t := by
    intro t hall
    refine StoreOp.does (fun u _ _ hu _ _ => rolls_delete_record (hall.rolls hu)) ?_
    exact fun r u hu _ => Does.ret fun x hx _ => hall.rolls (hu.trans hx)
  refine Does.attempt (Does.mono (Q := fun r t => r = .ok () → AllReflected F held t txn) ?_ ?_)
  · exact fun r t hr => ⟨fun _ hok => hdelete t (hr hok), fun _ herr _ _ hok => by cases hok⟩
  have hone : ∀ name blob, Carried held txn name blob →
      (record.inline = [] → Staged held txn name blob) ∧ (record.inline ≠ [] →
        ∃ hexed bytes, (name, hexed) ∈ record.inline ∧ hexDecode hexed = some bytes ∧
          blob = .bytes bytes) := by
    rintro name blob (⟨record', hrecord', hinline, hlookup⟩ | ⟨record', hexed, bytes, hrecord', h⟩)
    all_goals
      obtain rfl : record = record' := Option.some.inj (hrecord.symm.trans hrecord')
    · exact ⟨fun _ => ⟨record, hrecord, hinline, hlookup⟩, fun h => absurd hinline h⟩
    · exact ⟨fun hnil => by simp [hnil] at h, fun _ => ⟨hexed, bytes, h⟩⟩
  cases hinline : record.inline with
  | nil =>
    refine Store.does_list (fun t ht => ?_) nofun
    have hst : Sound F held t := ht.sound hs
    refine (runs_rollStaged hheld hrecord hinline _ hst (fun key hkey => ?_) ?_).mono ?_
    · obtain ⟨_, hpre⟩ := (mem_list_iff t _ key).mp hkey
      cases key <;> simp [stagingPrefix] at hpre
      rw [hpre, hheld.named txn record hrecord]
      exact ⟨_, rfl⟩
    · intro name blob hc
      refine (hst.kept txn name blob hc).symm.imp_right fun hget => ?_
      refine (mem_list_iff t _ _).mpr ⟨by simp [hget], ?_⟩
      simp [stagingPrefix, hheld.named txn record hrecord]
    · exact fun r u hr hok name blob hc => hr hok name blob ((hone name blob hc).1 hinline)
  | cons entry entries =>
    refine (runs_rollInline hheld hrecord (entry :: entries) (fun _ h => hinline ▸ h) hs).mono ?_
    intro r t hr hok name blob hc
    obtain ⟨hexed, bytes, hmem, hbytes, rfl⟩ := (hone name blob hc).2 (by simp [hinline])
    exact hr hok name hexed bytes (hinline ▸ hmem) hbytes

/-- The records a scan wanted and came to, or found gone, are reflected. -/
theorem runs_rollRecords (hheld : Committed F held) (wanted : TxnRecord ι τ β → Bool)
    (tidy : Bool) (keys : List (Key ι τ)) {w : LegacyWorld ι τ β} (hs : Sound F held w)
    (hkeys : ∀ key ∈ keys, ∃ txn, key = .record txn) :
    Runs F held (fun r t => r = .ok () → ∀ txn record, committedRecord held txn = some record →
      wanted record = true → AllReflected F held w txn ∨ .record txn ∈ keys →
        AllReflected F held t txn) (rollRecords F wanted tidy keys) w := by
  induction keys generalizing w with
  | nil => exact Does.ret fun t ht _ txn _ _ _ h => (h.resolve_right (by simp)).rolls ht
  | cons key keys ih =>
    obtain ⟨txn, rfl⟩ := hkeys key List.mem_cons_self
    have hkeys' : ∀ key ∈ keys, ∃ txn, key = .record txn :=
      fun key hkey => hkeys key (List.mem_cons_of_mem _ hkey)
    -- the rest of the scan, once the first record is dealt with
    have hrest : ∀ t, Rolls F held w t →
        (∀ record, committedRecord held txn = some record → wanted record = true →
          AllReflected F held t txn) →
        Runs F held (fun r u => r = .ok () → ∀ txn' record,
          committedRecord held txn' = some record → wanted record = true →
          AllReflected F held w txn' ∨ .record txn' ∈ .record txn :: keys →
            AllReflected F held u txn') (rollRecords F wanted tidy keys) t := by
      intro t ht hhead
      refine (ih (ht.sound hs) hkeys').mono fun r u hr hok txn' record hrecord hwanted h => ?_
      refine hr hok txn' record hrecord hwanted ?_
      rcases h with hall | hmem
      · exact .inl (hall.rolls ht)
      · rcases List.mem_cons.mp hmem with heq | hmem
        · cases heq
          exact .inl (hhead record hrecord hwanted)
        · exact .inr hmem
    refine Store.does_get (fun t ht => ?_) nofun
    have hst : Sound F held t := ht.sound hs
    cases hget : t.get (.record txn) with
    | none => exact hrest t ht fun _ _ _ => hst.rolled txn hget
    | some blob =>
      have hlookup : held.lookup (.record txn) = some blob := hst.record txn blob hget
      cases hparse : parseRecord blob with
      | none =>
        have hnone : committedRecord held txn = none := by
          rw [committedRecord, hlookup]
          exact hparse
        simp only [hparse]
        have htidy : Runs F held (fun _ u => Rolls F held t u)
            (if tidy then Store.delete (.record txn) else .ret (.ok ())) t := by
          split
          · refine StoreOp.does (fun u _ _ _ _ _ => rolls_delete_record ?_)
              fun r u hu _ => Does.ret fun x hx => hu.trans hx
            intro name b hc
            obtain ⟨record, hsome⟩ := hc.committed
            rw [hnone] at hsome
            cases hsome
          · exact Does.ret fun u hu => hu
        refine Does.attempt (htidy.mono fun r u hu => ⟨fun _ _ => ?_, ?_⟩)
        · refine hrest u (ht.trans hu) fun record hsome => ?_
          rw [hnone] at hsome
          cases hsome
        · exact fun _ _ _ _ hok => by cases hok
      | some record =>
        have hrecord : committedRecord held txn = some record := by
          rw [committedRecord, hlookup]
          exact hparse
        simp only [hparse]
        have hroll : Runs F held (fun r u => Rolls F held t u ∧
            (r = .ok () → wanted record = true → AllReflected F held u txn))
            (if wanted record then rollForward F (.record txn) record else .ret (.ok ())) t := by
          split
          · refine (runs_rollForward hheld hrecord hst).since.mono ?_
            rintro r u ⟨hr, hu⟩
            exact ⟨hu, fun hok _ => hr hok⟩
          · next hunwanted => exact Does.ret fun u hu => ⟨hu, fun _ h => absurd h hunwanted⟩
        refine Does.attempt (hroll.mono ?_)
        rintro r u ⟨hu, hr⟩
        refine ⟨fun _ hok => hrest u (ht.trans hu) fun record' hrecord' hwanted => ?_, ?_⟩
        · obtain rfl : record = record' := Option.some.inj (hrecord.symm.trans hrecord')
          exact hr hok hwanted
        · exact fun _ _ _ _ hok => by cases hok

/-- What is left of the staging, once every record is reflected. -/
theorem runs_discardStaging (keys : List (Key ι τ)) {w : LegacyWorld ι τ β}
    (hall : ∀ txn, AllReflected F held w txn)
    (hkeys : ∀ key ∈ keys, ∃ txn name, key = .staging txn name) :
    Runs F held (fun _ t => ∀ txn, AllReflected F held t txn) (discardStaging keys) w := by
  induction keys generalizing w with
  | nil => exact Does.ret fun _ ht txn => (hall txn).rolls ht
  | cons key keys ih =>
    obtain ⟨txn, name, rfl⟩ := hkeys key List.mem_cons_self
    have hkeys' := fun key hkey => hkeys key (List.mem_cons_of_mem _ hkey)
    refine Does.call fun t ht _ _ _ => ⟨rolls_note _, ?_⟩
    have hnote : Rolls F held w { t with notes := .discarding (.staging txn name) :: t.notes } :=
      ht.trans (rolls_note _)
    refine StoreOp.does (fun u _ _ hu _ _ => rolls_delete_staging fun blob hc => ?_)
      fun r u hu _ => ?_
    · exact ((hall txn).rolls (hnote.trans hu)) name blob (.inl hc)
    · have hall' : ∀ txn, AllReflected F held u txn :=
        fun txn => (hall txn).rolls (hnote.trans hu)
      cases r with
      | error e => exact Does.ret fun x hx txn => (hall' txn).rolls hx
      | ok _ => exact ih hall' hkeys'

theorem listed_records (w : LegacyWorld ι τ β) (key : Key ι τ)
    (hkey : key ∈ w.blobs.keys.filter txnsPrefix) : ∃ txn, key = .record txn := by
  obtain ⟨_, hpre⟩ := (mem_list_iff w _ key).mp hkey
  cases key <;> simp [txnsPrefix] at hpre
  exact ⟨_, rfl⟩

/-- A record that is not listed has been rolled forward. -/
theorem Sound.listed {w : LegacyWorld ι τ β} (hs : Sound F held w) (txn : τ) :
    AllReflected F held w txn ∨ .record txn ∈ w.blobs.keys.filter txnsPrefix := by
  cases hget : w.get (.record txn) with
  | none => exact .inl (hs.rolled txn hget)
  | some b => exact .inr ((mem_list_iff w _ _).mpr ⟨by simp [hget], rfl⟩)

theorem runs_recover (hheld : Committed F held) {w : LegacyWorld ι τ β} (hs : Sound F held w) :
    Runs F held (fun r t => r = .ok () → ∀ txn, AllReflected F held t txn) (recover F) w := by
  refine Store.does_list (fun t ht => ?_) nofun
  have hst : Sound F held t := ht.sound hs
  refine Does.attempt ((runs_rollRecords hheld _ true _ hst (listed_records t)).mono ?_)
  intro r u hr
  refine ⟨fun _ hok => Store.does_list (fun x hx => ?_) nofun, fun _ _ _ _ hok => by cases hok⟩
  have hall : ∀ txn, AllReflected F held u txn := by
    intro txn name blob hc
    obtain ⟨record, hrecord⟩ := hc.committed
    exact hr hok txn record hrecord rfl (hst.listed txn) name blob hc
  refine (runs_discardStaging _ (fun txn => (hall txn).rolls hx) fun key hkey => ?_).mono
    fun _ _ h _ txn => h txn
  obtain ⟨_, hpre⟩ := (mem_list_iff x _ key).mp hkey
  cases key <;> simp [allStaging] at hpre
  exact ⟨_, _, rfl⟩

/-- A call that returns leaves every record it wants reflected. -/
theorem runs_call (hheld : Committed F held) (call : Call ι τ) {w : LegacyWorld ι τ β}
    (hs : Sound F held w) :
    Runs F held (fun r t => r = .ok () → ∀ txn record, committedRecord held txn = some record →
      call.wants txn record → AllReflected F held t txn) (call.prog F held) w := by
  cases call with
  | recover => exact (runs_recover hheld hs).mono fun _ _ h hok txn _ _ _ => h hok txn
  | touching object =>
    refine Store.does_list (fun t ht => ?_) nofun
    have hst : Sound F held t := ht.sound hs
    refine (runs_rollRecords hheld _ false _ hst (listed_records t)).mono ?_
    intro r u hr hok txn record hrecord hwants
    exact hr hok txn record hrecord (decide_eq_true hwants) (hst.listed txn)
  | forward txn =>
    cases hrecord : committedRecord held txn with
    | none =>
      rw [Call.prog, hrecord]
      refine Does.ret ?_
      rintro _ _ _ _ record hsome rfl
      rw [hrecord] at hsome
      cases hsome
    | some record =>
      rw [Call.prog, hrecord]
      refine (runs_rollForward hheld hrecord hs).mono ?_
      rintro r t hr hok _ _ _ rfl
      exact hr hok

end Specs

end Fafo.Legacy.Rollers
