import Fafo.LegacyRecovery

/-! A boat whose record was put is reflected once a later recovery is through. -/
namespace Fafo.Legacy

open Interleave

variable {ι τ ρ β α : Type} [DecidableEq ι] [DecidableEq τ]

section Conditions

variable (F : Files β) (fleet : τ → Boat ι β) (e : Env)
  (last : Option (Event (nodeSig (Key ι τ) (Blob ι τ β) (Note ι τ))))
  (o : NodeOp (Key ι τ) (Blob ι τ β) (Note ι τ)) (w : LegacyWorld ι τ β)

/-- A staged boat's record lands only while all of its payloads are staged. -/
def CommitsWhole : Prop :=
  match o with
  | .store (.put (.record txn) _) => e.fault ≠ .failed → (fleet txn).inline F = false →
      ∀ item ∈ (fleet txn).items, (w.get (item.stagingKey txn)).isSome
  | _ => True

/-- A payload whose boat's record is there is discarded as uncommitted only if it is reflected. -/
def DiscardsSpent : Prop :=
  match last, o with
  | some ⟨.note (.discarding _), _⟩, .store (.delete (.staging txn name)) =>
      e.fault ≠ .failed → (w.get (.record txn)).isSome → (w.get (.staging txn name)).isSome →
        ∀ item ∈ (fleet txn).items, item.name = name → Reflected F w item
  | _, _ => True

/-- A base is not replaced by an older one. -/
def PromotesForward : Prop :=
  match o with
  | .store (.put (.base object) blob) => e.fault ≠ .failed →
      ∀ held, w.get (.base object) = some held → F.counter held ≤ F.counter blob
  | _ => True

structure Careful : Prop where
  whole : CommitsWhole F fleet e o w
  spent : DiscardsSpent F fleet e last o w
  forward : PromotesForward F e o w

end Conditions

section Specs

variable {F : Files β} {fleet : τ → Boat ι β}

abbrev Runs (F : Files β) (fleet : τ → Boat ι β) (Q : α → LegacyWorld ι τ β → Prop)
    (p : LegacyTask ι τ β α) (w : LegacyWorld ι τ β) : Prop :=
  Does node (Careful F fleet) (Evolves F fleet) (Evolves F fleet) Q p w

theorem runs_note {n : Note ι τ} {f : Unit → LegacyTask ι τ β α}
    {Q : α → LegacyWorld ι τ β → Prop} {w : LegacyWorld ι τ β}
    (hn : ∀ txn, n = .answered txn none → Standing F fleet w txn)
    (hk : ∀ t, Evolves F fleet w t → Runs F fleet Q (f ()) t) :
    Runs F fleet Q ((note n).bind f) w := by
  refine Does.call fun t ht _ _ _ => ?_
  have hnote : Evolves F fleet t { t with notes := n :: t.notes } :=
    evolves_note fun txn heq => ht.standing txn (hn txn heq)
  exact ⟨hnote, hk _ (ht.trans hnote)⟩

theorem runs_ask {q : Query} {f : Bool → LegacyTask ι τ β α}
    {Q : α → LegacyWorld ι τ β → Prop} {w : LegacyWorld ι τ β}
    (hk : ∀ t b, Evolves F fleet w t → Runs F fleet Q (f b) t) :
    Runs F fleet Q ((ask q).bind f) w :=
  Does.call fun t ht _ _ _ => ⟨.refl t, hk t _ ht⟩

/-- A discarded blob is spent, by the condition on discards. -/
theorem runs_discard {txn : τ} {name : Name ι}
    {k : Except Error Unit → LegacyTask ι τ β α} {Q : α → LegacyWorld ι τ β → Prop}
    {w : LegacyWorld ι τ β} (hk : ∀ r u, Evolves F fleet w u → Runs F fleet Q (k r) u) :
    Runs F fleet Q ((note (.discarding (.staging txn name))).bind fun _ =>
      .call (NodeOp.store (.delete (.staging txn name))) k) w := by
  intro _ t ht _ _
  have hnote : Evolves F fleet t { t with notes := .discarding (.staging txn name) :: t.notes } :=
    evolves_note nofun
  refine ⟨hnote, StoreOp.sat (fun u e _ hcareful hfault => ?_) fun r u hu _ => ?_⟩
  · exact evolves_delete_staging (hcareful.spent hfault)
  · exact hk r u ((ht.trans hnote).trans hu) _

/-- The item a staged name stands for is reflected once its payload is promoted. -/
theorem reflected_of_home {item : ShipItem ι β} {w : LegacyWorld ι τ β} :
    Reflected F (w.effect (.put item.name.home (.bytes item.bytes))) item := by
  obtain ⟨object, payload⟩ := item
  cases payload with
  | snapshot bytes gc =>
    refine .inl ⟨.bytes bytes, ?_, le_rfl⟩
    simp [World.get_put, ShipItem.name, Name.home, ShipItem.bytes, ShipPayload.bytes]
  | delta counter bytes =>
    refine .inr ⟨counter, bytes, rfl, ?_⟩
    simp [World.get_put, ShipItem.name, Name.home]

/-- A promotion is harmless, and an answered one leaves the item reflected. -/
theorem runs_put_home {item : ShipItem ι β} {k : Except Error Unit → LegacyTask ι τ β α}
    {Q : α → LegacyWorld ι τ β → Prop} {w : LegacyWorld ι τ β}
    (hk : ∀ r u, Evolves F fleet w u → (r = .ok () → Reflected F u item) →
      Runs F fleet Q (k r) u) :
    Runs F fleet Q
      (.call (NodeOp.store (.put item.name.home (.bytes item.bytes))) k) w := by
  refine StoreOp.does (fun t e last _ hcareful hfault => ?_)
    fun r u hu hr => hk r u hu fun hok => ?_
  · obtain ⟨object, payload⟩ := item
    cases payload with
    | snapshot bytes gc => exact evolves_put_base (hcareful.forward hfault)
    | delta counter bytes => exact evolves_put_delta object counter _
  · obtain ⟨t, _, _, rfl⟩ := hr () hok
    exact reflected_of_home

theorem runs_promoteStaged (item : ShipItem ι β) (w : LegacyWorld ι τ β) :
    Runs F fleet (fun r t => r = .ok () → Reflected F t item)
      (promoteStaged F item.name (.bytes item.bytes)) w := by
  have hput : ∀ t : LegacyWorld ι τ β, Runs F fleet (fun r t => r = .ok () → Reflected F t item)
      (Store.put item.name.home (.bytes item.bytes)) t := by
    intro t
    refine runs_put_home fun r u hu hr => Does.ret fun x hx hok => ?_
    exact hx.reflected item (hr hok)
  obtain ⟨object, payload⟩ := item
  cases payload with
  | delta counter bytes => exact hput w
  | snapshot bytes gc =>
    refine Store.does_get (fun t ht => ?_) nofun
    split
    · next hnewer =>
      obtain ⟨held, hheld, hle⟩ := (Option.any_eq_true _ _).mp hnewer
      exact Does.ret fun u hu _ => hu.reflected _ (.inl ⟨held, hheld, of_decide_eq_true hle⟩)
    · exact hput t

omit [DecidableEq ι] in
/-- A boat carries one item per object, so its names tell its items apart. -/
theorem Boat.item_eq (boat : Boat ι β) {i j : ShipItem ι β} (hi : i ∈ boat.items)
    (hj : j ∈ boat.items) (h : i.name = j.name) : i = j := by
  refine List.inj_on_of_nodup_map boat.objects_nodup hi hj ?_
  have hobject : ∀ i : ShipItem ι β, i.name.object = i.object := by
    intro i
    unfold ShipItem.name
    split <;> rfl
  rw [← hobject i, ← hobject j, h]

/-- A staged blob of a standing boat is missing only once its item is reflected. -/
theorem reflected_of_unstaged {w : LegacyWorld ι τ β} {txn : τ} (hs : Sound F fleet w)
    (hstanding : Standing F fleet w txn) (hstage : (fleet txn).inline F = false)
    {item : ShipItem ι β} (hmem : item ∈ (fleet txn).items)
    (hnone : w.get (item.stagingKey txn) = none) : Reflected F w item := by
  rcases hstanding with hrec | hall
  · rcases hs.kept txn hrec hstage item hmem with h | h
    · exact h
    · rw [hnone] at h
      cases h
  · exact hall item hmem

theorem runs_rollStaged {txn : τ} (hstage : (fleet txn).inline F = false) (keys : List (Key ι τ))
    {w : LegacyWorld ι τ β} (hs : Sound F fleet w) (hstanding : Standing F fleet w txn)
    (hkeys : ∀ key ∈ keys, ∃ item ∈ (fleet txn).items, key = item.stagingKey txn)
    (hleft : ∀ item ∈ (fleet txn).items, Reflected F w item ∨ item.stagingKey txn ∈ keys) :
    Runs F fleet (fun r t => r = .ok () → AllReflected F fleet t txn) (rollStaged F keys) w := by
  induction keys generalizing w with
  | nil =>
    refine Does.ret fun t ht _ item hmem => ht.reflected item ?_
    exact (hleft item hmem).resolve_right (by simp)
  | cons key keys ih =>
    obtain ⟨item, hmem, rfl⟩ := hkeys key List.mem_cons_self
    refine Store.does_get (fun t ht => ?_) fun e t hok => by cases hok
    -- the item at the head of the list is reflected before its blob is deleted
    have hdelete : ∀ u, Evolves F fleet t u → Reflected F u item →
        Runs F fleet (fun r t => r = .ok () → AllReflected F fleet t txn)
          ((Store.delete (item.stagingKey txn)).attempt fun _ => rollStaged F keys) u := by
      intro u hu hitem
      refine Store.does_delete (fun x hx => ?_) (fun x hx => ?_) fun e t hok => by cases hok
      · refine evolves_delete_staging fun _ _ other hother hname => ?_
        rw [(fleet txn).item_eq hother hmem hname]
        exact hx.reflected item hitem
      · have hwx := (ht.trans hu).trans hx
        refine ih (hwx.sound hs) (hwx.standing txn hstanding)
          (fun key hkey => hkeys key (List.mem_cons_of_mem _ hkey)) fun other hother => ?_
        rcases hleft other hother with h | h
        · exact .inl (hwx.reflected other h)
        · rcases List.mem_cons.mp h with heq | h
          · obtain rfl : other = item := by
              refine (fleet txn).item_eq hother hmem ?_
              simpa [ShipItem.stagingKey] using heq
            exact .inl (hx.reflected _ hitem)
          · exact .inr h
    have hst := ht.sound hs
    cases hget : t.get (item.stagingKey txn) with
    | none =>
      have hitem := reflected_of_unstaged hst (ht.standing txn hstanding) hstage hmem hget
      exact Does.attempt (Does.ret fun u hu =>
        ⟨fun _ _ => hdelete u hu (hu.reflected item hitem), fun e herr => by cases herr⟩)
    | some blob =>
      obtain ⟨other, hother, hname, rfl⟩ := hst.staged txn _ _ hget
      rw [(fleet txn).item_eq hother hmem hname]
      refine Does.attempt ((runs_promoteStaged item t).since.mono ?_)
      rintro r u ⟨hr, hu⟩
      exact ⟨fun _ hok => hdelete u hu (hr hok), fun _ herr _ _ hok => by simp at hok⟩

theorem runs_rollInline (items : List (ShipItem ι β)) (w : LegacyWorld ι τ β) :
    Runs F fleet (fun r t => r = .ok () → ∀ item ∈ items, Reflected F t item)
      (rollInline F (items.map fun item => (item.name, hexEncode item.bytes))) w := by
  induction items generalizing w with
  | nil => exact Does.ret fun _ _ _ => by simp
  | cons item items ih =>
    refine Does.attempt ((runs_promoteStaged item w).mono fun r t hr => ?_)
    refine ⟨fun _ hok => ?_, fun _ herr _ _ hok => by simp at hok⟩
    refine ((ih t).frame (K := (Reflected F · item)) (fun _ _ h => h.reflected item)
      (fun _ _ h => h.reflected item) (hr hok)).mono ?_
    rintro r u ⟨hrest, hitem⟩ hok
    exact List.forall_mem_cons.mpr ⟨hitem, hrest hok⟩

/-- What rolling a standing boat's record forward achieves. -/
theorem runs_rollForward {txn : τ} {w : LegacyWorld ι τ β} (hs : Sound F fleet w)
    (hstanding : Standing F fleet w txn) :
    Runs F fleet (fun r t => r = .ok () → AllReflected F fleet t txn)
      (rollForward F (.record txn) ((fleet txn).record F txn)) w := by
  have hdelete : ∀ t, AllReflected F fleet t txn →
      Runs F fleet (fun r t => r = .ok () → AllReflected F fleet t txn)
        (Store.delete (.record txn)) t := by
    intro t hall
    refine StoreOp.does (fun u _ _ hu _ _ => evolves_delete_record (hall.evolves hu)) ?_
    exact fun r u hu _ => Does.ret fun x hx _ => hall.evolves (hu.trans hx)
  refine Does.attempt (Does.mono (Q := fun r t => r = .ok () → AllReflected F fleet t txn) ?_ ?_)
  · exact fun r t hr => ⟨fun _ hok => hdelete t (hr hok), fun _ herr _ _ hok => by simp at hok⟩
  cases hinline : (fleet txn).inline F with
  | true =>
    have hrecord : ((fleet txn).record F txn).inline =
        (fleet txn).items.map fun item => (item.name, hexEncode item.bytes) := by
      simp [Boat.record, hinline]
    rw [hrecord]
    cases hitems : (fleet txn).items with
    | nil =>
      -- nothing rides in the record of an empty boat, and nothing is staged for it
      refine Store.does_list (fun t ht => ?_) nofun
      have hkeys : t.blobs.keys.filter (stagingPrefix ((fleet txn).record F txn).txnId) = [] := by
        refine List.eq_nil_iff_forall_not_mem.mpr fun key hkey => ?_
        obtain ⟨hsome, hpre⟩ := (mem_list_iff t _ key).mp hkey
        cases key <;> simp [stagingPrefix] at hpre
        obtain ⟨b, hb⟩ := Option.isSome_iff_exists.mp hsome
        obtain ⟨item, hmem, _⟩ := (ht.sound hs).staged _ _ b hb
        rw [hpre, Boat.record, hitems] at hmem
        cases hmem
      rw [hkeys]
      refine Does.ret fun _ _ _ item hmem => ?_
      rw [hitems] at hmem
      cases hmem
    | cons item items =>
      exact (runs_rollInline (item :: items) w).mono fun r t hr hok i hi => hr hok i (hitems ▸ hi)
  | false =>
    have hrecord : ((fleet txn).record F txn).inline = [] := by simp [Boat.record, hinline]
    rw [hrecord]
    refine Store.does_list (fun t ht => ?_) nofun
    have hst := ht.sound hs
    have hstandingt := ht.standing txn hstanding
    refine runs_rollStaged hinline _ hst hstandingt (fun key hkey => ?_) fun item hmem => ?_
    · obtain ⟨hsome, hpre⟩ := (mem_list_iff t _ key).mp hkey
      cases key <;> simp [stagingPrefix] at hpre
      obtain ⟨b, hb⟩ := Option.isSome_iff_exists.mp hsome
      obtain ⟨item, hmem, rfl, _⟩ := hst.staged _ _ b hb
      rw [hpre] at hmem ⊢
      exact ⟨item, hmem, rfl⟩
    · cases hget : t.get (item.stagingKey txn) with
      | none => exact .inl (reflected_of_unstaged hst hstandingt hinline hmem hget)
      | some b =>
        refine .inr ((mem_list_iff t _ _).mpr ⟨by simp [hget], ?_⟩)
        simp [stagingPrefix, ShipItem.stagingKey, Boat.record]

/-- The boats whose records a scan wanted, and was sure to come to, are reflected. -/
theorem runs_rollRecords (wanted : TxnRecord ι τ β → Bool) (tidy : Bool) (keys : List (Key ι τ))
    {w : LegacyWorld ι τ β} (hs : Sound F fleet w)
    (hkeys : ∀ key ∈ keys, ∃ txn, key = .record txn) :
    Runs F fleet (fun r t => r = .ok () → ∀ txn, wanted ((fleet txn).record F txn) = true →
      AllReflected F fleet w txn ∨ Standing F fleet w txn ∧ .record txn ∈ keys →
        AllReflected F fleet t txn) (rollRecords F wanted tidy keys) w := by
  induction keys generalizing w with
  | nil =>
    refine Does.ret fun t ht _ txn _ hin => ?_
    exact (hin.resolve_right (by simp)).evolves ht
  | cons key keys ih =>
    obtain ⟨txn, rfl⟩ := hkeys key List.mem_cons_self
    have hkeys' : ∀ key ∈ keys, ∃ txn, key = .record txn :=
      fun key hkey => hkeys key (List.mem_cons_of_mem _ hkey)
    -- what is left to do once the head of the list is dealt with
    have hrest : ∀ t, Evolves F fleet w t →
        (wanted ((fleet txn).record F txn) = true → Standing F fleet w txn →
          AllReflected F fleet t txn) →
        Runs F fleet (fun r u => r = .ok () → ∀ txn', wanted ((fleet txn').record F txn') = true →
          AllReflected F fleet w txn' ∨ Standing F fleet w txn' ∧ .record txn' ∈
            .record txn :: keys → AllReflected F fleet u txn')
          (rollRecords F wanted tidy keys) t := by
      intro t ht hhead
      refine (ih (ht.sound hs) hkeys').mono fun r u hr hok txn' hwanted hin => ?_
      refine hr hok txn' hwanted ?_
      rcases hin with hall | ⟨hstanding, hmem⟩
      · exact .inl (hall.evolves ht)
      · rcases List.mem_cons.mp hmem with heq | hmem
        · cases heq
          exact .inl (hhead hwanted hstanding)
        · exact .inr ⟨ht.standing txn' hstanding, hmem⟩
    refine Store.does_get (fun t ht => ?_) nofun
    cases hget : t.get (.record txn) with
    | none =>
      refine hrest t ht fun _ hstanding => ?_
      exact (ht.standing txn hstanding).resolve_left (by simp [hget])
    | some blob =>
      obtain rfl := (ht.sound hs).record txn blob hget
      simp only [parseRecord]
      have hroll : Runs F fleet (fun r u => Evolves F fleet t u ∧
          (r = .ok () → wanted ((fleet txn).record F txn) = true → AllReflected F fleet u txn))
          (if wanted ((fleet txn).record F txn) then
            rollForward F (.record txn) ((fleet txn).record F txn) else .ret (.ok ())) t := by
        split
        · refine (runs_rollForward (ht.sound hs) (.inl (by simp [hget]))).since.mono ?_
          rintro r u ⟨hr, hu⟩
          exact ⟨hu, fun hok _ => hr hok⟩
        · next hunwanted => exact Does.ret fun u hu => ⟨hu, fun _ h => absurd h hunwanted⟩
      refine Does.attempt (hroll.mono ?_)
      rintro r u ⟨hu, hr⟩
      refine ⟨fun _ hok => hrest u (ht.trans hu) fun hwanted _ => hr hok hwanted, ?_⟩
      exact fun _ _ _ _ hok => by simp at hok

theorem runs_discardStaging (keys : List (Key ι τ)) {w : LegacyWorld ι τ β}
    (hkeys : ∀ key ∈ keys, ∃ txn name, key = .staging txn name) :
    Runs F fleet (fun _ t => Evolves F fleet w t) (discardStaging keys) w := by
  induction keys generalizing w with
  | nil => exact Does.ret fun _ ht => ht
  | cons key keys ih =>
    obtain ⟨txn, name, rfl⟩ := hkeys key List.mem_cons_self
    refine runs_discard fun r u hu => ?_
    cases r with
    | error e => exact Does.ret fun _ ht => hu.trans ht
    | ok _ =>
      exact (ih fun key hkey => hkeys key (List.mem_cons_of_mem _ hkey)).mono
        fun _ _ ht => hu.trans ht

/-- A recovery that returns leaves every boat it wants, and that stood when it began, reflected. -/
theorem runs_duty (duty : Duty ι) {w : LegacyWorld ι τ β} (hs : Sound F fleet w) :
    Runs F fleet (fun r t => r = .ok () → ∀ txn, duty.wants (fleet txn).objects →
      Standing F fleet w txn → AllReflected F fleet t txn) (duty.prog F) w := by
  have hlisted : ∀ t, Evolves F fleet w t → ∀ txn, Standing F fleet w txn →
      AllReflected F fleet t txn ∨ Standing F fleet t txn ∧
        .record txn ∈ t.blobs.keys.filter txnsPrefix := by
    intro t ht txn hstanding
    rcases ht.standing txn hstanding with hrec | hall
    · exact .inr ⟨.inl hrec, (mem_list_iff t _ _).mpr ⟨hrec, rfl⟩⟩
    · exact .inl hall
  have hrecords : ∀ t : LegacyWorld ι τ β, ∀ key ∈ t.blobs.keys.filter txnsPrefix,
      ∃ txn, key = .record txn := by
    intro t key hkey
    obtain ⟨_, hpre⟩ := (mem_list_iff t _ key).mp hkey
    cases key <;> simp [txnsPrefix] at hpre
    exact ⟨_, rfl⟩
  cases duty with
  | activation object =>
    refine Store.does_list (fun t ht => ?_) nofun
    refine (runs_rollRecords _ false _ (ht.sound hs) (hrecords t)).mono ?_
    intro r u hr hok txn hwants hstanding
    exact hr hok txn (decide_eq_true hwants) (hlisted t ht txn hstanding)
  | boot =>
    refine Store.does_list (fun t ht => ?_) nofun
    refine Does.attempt ((runs_rollRecords _ true _ (ht.sound hs) (hrecords t)).mono ?_)
    intro r u hr
    refine ⟨fun _ hok => Store.does_list (fun x hx => ?_) nofun, fun _ _ _ _ hok => by simp at hok⟩
    refine (runs_discardStaging _ fun key hkey => ?_).mono fun _ y hy _ txn _ hstanding => ?_
    · obtain ⟨_, hpre⟩ := (mem_list_iff x _ key).mp hkey
      cases key <;> simp [allStaging] at hpre
      exact ⟨_, _, rfl⟩
    · exact ((hr hok txn rfl (hlisted t ht txn hstanding)).evolves hx).evolves hy

theorem runs_stageAll {txn : τ} (items : List (ShipItem ι β))
    (hitems : ∀ item ∈ items, item ∈ (fleet txn).items) (w : LegacyWorld ι τ β) :
    Runs F fleet (fun _ _ => True) (stageAll txn items) w := by
  induction items generalizing w with
  | nil => exact Does.ret fun _ _ => trivial
  | cons item items ih =>
    obtain ⟨hmem, hitems⟩ := List.forall_mem_cons.mp hitems
    refine StoreOp.does (fun _ _ _ _ _ _ => evolves_put_staging hmem) fun r u _ _ => ?_
    change Runs F fleet _ ((stageAll txn items).bind _) u
    refine Does.bind ((ih hitems u).mono fun _ _ _ => ?_)
    split <;> exact Does.ret fun _ _ => trivial

theorem runs_discardAll {txn : τ} (items : List (ShipItem ι β)) (w : LegacyWorld ι τ β) :
    Runs F fleet (fun _ _ => True) (discardAll txn items) w := by
  induction items generalizing w with
  | nil => exact Does.ret fun _ _ => trivial
  | cons item items ih => exact runs_discard fun _ u _ => ih u

theorem runs_shipFailed (txn : τ) (err : ShipError ι) (w : LegacyWorld ι τ β) :
    Runs F fleet (fun _ _ => True) (shipFailed F txn (fleet txn) err) w := by
  have hdiscard : Runs F fleet (fun _ _ => True)
      (if (fleet txn).inline F then .ret () else discardAll txn (fleet txn).items) w := by
    split
    · exact Does.ret fun _ _ => trivial
    · exact runs_discardAll _ w
  refine Does.bind (hdiscard.mono fun _ t _ => ?_)
  exact runs_note (fun _ heq => by cases heq) fun _ _ => Does.ret fun _ _ => trivial

theorem runs_promoteAll (items : List (ShipItem ι β)) (w : LegacyWorld ι τ β) :
    Runs F fleet (fun unpromoted t => unpromoted = [] → ∀ item ∈ items, Reflected F t item)
      (promoteAll items) w := by
  induction items generalizing w with
  | nil => exact Does.ret fun _ _ _ => by simp
  | cons item items ih =>
    refine runs_put_home fun r u _ hr => ?_
    have hstay := (ih u).frame (K := fun t => r = .ok () → Reflected F t item)
      (fun _ _ h hi hok => h.reflected item (hi hok))
      (fun _ _ h hi hok => h.reflected item (hi hok)) hr
    change Runs F fleet _ ((promoteAll items).bind _) u
    refine Does.bind (hstay.mono ?_)
    rintro unpromoted t ⟨hrest, hitem⟩
    cases r with
    | ok _ =>
      refine Does.ret fun x hx hnil => List.forall_mem_cons.mpr ⟨hx.reflected _ (hitem rfl), ?_⟩
      exact fun i hi => hx.reflected i (hrest hnil i hi)
    | error e => exact Does.ret fun _ _ h => by cases h

theorem runs_unstageAll {txn : τ} (items : List (ShipItem ι β))
    (hitems : ∀ item ∈ items, item ∈ (fleet txn).items) {w : LegacyWorld ι τ β}
    (hall : AllReflected F fleet w txn) :
    Runs F fleet (fun _ t => AllReflected F fleet t txn) (unstageAll txn items) w := by
  induction items generalizing w with
  | nil => exact Does.ret fun _ ht => hall.evolves ht
  | cons item items ih =>
    obtain ⟨_, hitems⟩ := List.forall_mem_cons.mp hitems
    refine StoreOp.does (fun t _ _ ht _ _ => ?_) fun _ u hu _ => ih hitems (hall.evolves hu)
    exact evolves_delete_staging fun _ _ other hother _ => hall.evolves ht other hother

/-- Deltas at or below a snapshot's counter, once its base is reflected. -/
theorem runs_gcKeys {item : ShipItem ι β} {bytes : β} {gc : Bool}
    (hpayload : item.payload = .snapshot bytes gc) (keys : List (Key ι τ)) {w : LegacyWorld ι τ β}
    (hitem : Reflected F w item) :
    Runs F fleet (fun _ _ => True) (gcKeys item.object (F.changeCounter bytes) keys) w := by
  induction keys generalizing w with
  | nil => exact Does.ret fun _ _ => trivial
  | cons key keys ih =>
    rw [gcKeys]
    split
    · next hold =>
      obtain ⟨c, hc, hle⟩ := (Option.any_eq_true _ _).mp hold
      cases key <;> simp [parseDeltaCounter] at hc
      obtain ⟨rfl, rfl⟩ := hc
      refine StoreOp.does (fun t _ _ ht _ _ => ?_) fun _ u hu _ => ih (hu.reflected item hitem)
      rcases ht.reflected item hitem with ⟨base, hbase, hcounter⟩ | ⟨_, _, hdelta, _⟩
      · rw [ShipItem.counter, hpayload] at hcounter
        exact evolves_delete_delta hbase ((of_decide_eq_true hle).trans hcounter)
      · rw [hpayload] at hdelta
        cases hdelta
    · exact ih hitem

theorem runs_gcAll (items : List (ShipItem ι β)) {w : LegacyWorld ι τ β}
    (hall : ∀ item ∈ items, Reflected F w item) :
    Runs F fleet (fun _ _ => True) (gcAll F items) w := by
  induction items generalizing w with
  | nil => exact Does.ret fun _ _ => trivial
  | cons item items ih =>
    obtain ⟨hitem, hall⟩ := List.forall_mem_cons.mp hall
    refine Does.bind (Does.mono (Q := fun _ t => ∀ item ∈ items, Reflected F t item)
      (fun _ _ ht => ih ht) ?_)
    have hstays : ∀ t, Evolves F fleet w t → ∀ item ∈ items, Reflected F t item :=
      fun t ht i hi => ht.reflected i (hall i hi)
    split
    · next bytes hpayload =>
      refine StoreOp.does (fun t _ _ _ _ _ => .refl t) fun r u hu _ => ?_
      cases r with
      | ok keys =>
        refine ((runs_gcKeys hpayload keys (hu.reflected item hitem)).frame
          (K := fun t => ∀ item ∈ items, Reflected F t item)
          (fun _ _ h hr i hi => h.reflected i (hr i hi))
          (fun _ _ h hr i hi => h.reflected i (hr i hi)) (hstays u hu)).mono fun _ _ h => h.2
      | error e => exact Does.ret fun t ht => hstays t (hu.trans ht)
    · exact Does.ret hstays

theorem runs_shipped {txn : τ} {w : LegacyWorld ι τ β} (hstanding : Standing F fleet w txn) :
    Runs F fleet (fun _ _ => True) (shipped F txn (fleet txn)) w := by
  refine runs_note (fun t heq => ?_) fun t _ => ?_
  · cases heq
    exact hstanding
  refine Does.bind ((runs_promoteAll _ t).mono fun unpromoted u hall => Does.bind ?_)
  refine Does.mono (Q := fun _ _ => True) (fun _ _ _ => Does.ret fun _ _ => trivial) ?_
  split
  · next hempty =>
    have hall' : AllReflected F fleet u txn := hall (List.isEmpty_iff.mp hempty)
    have hunstage : Runs F fleet (fun _ t => AllReflected F fleet t txn)
        (if (fleet txn).inline F then .ret () else unstageAll txn (fleet txn).items) u := by
      split
      · exact Does.ret fun _ ht => hall'.evolves ht
      · exact runs_unstageAll _ (fun _ => id) hall'
    refine Does.bind (hunstage.mono fun _ x hx => ?_)
    refine StoreOp.does (fun y _ _ hy _ _ => evolves_delete_record (hx.evolves hy)) ?_
    exact fun _ y hy _ => runs_gcAll _ (hx.evolves hy)
  · exact Does.ret fun _ _ => trivial

theorem runs_shipTask (txn : τ) (w : LegacyWorld ι τ β) :
    Runs F fleet (fun _ _ => True) (shipTask F txn (fleet txn)) w := by
  have hstage : Runs F fleet (fun _ _ => True)
      (if (fleet txn).inline F then .ret none else stageAll txn (fleet txn).landing) w := by
    split
    · exact Does.ret fun _ _ => trivial
    · exact runs_stageAll _ (fun item hmem => (fleet txn).landing_perm.mem_iff.mp hmem) w
  refine Does.bind (hstage.mono fun staged t _ => ?_)
  cases staged with
  | some e => exact runs_shipFailed txn _ t
  | none =>
    have hgate : Runs F fleet (fun _ _ => True) gate t := by
      refine runs_ask fun u held _ => ?_
      split
      · exact runs_ask fun _ _ _ => Does.ret fun _ _ => trivial
      · exact Does.ret fun _ _ => trivial
    refine Does.bind (hgate.mono fun err u _ => ?_)
    cases err with
    | some err => exact runs_shipFailed txn err u
    | none =>
      refine StoreOp.does (fun x e last _ hcareful hfault => ?_) fun r x hx hr => ?_
      · exact evolves_put_record (hcareful.whole hfault)
      · cases r with
        | error e => exact runs_shipFailed txn _ x
        | ok a =>
          obtain ⟨y, _, _, rfl⟩ := hr a rfl
          exact runs_shipped (.inl (by simp [World.get_put]))

end Specs

section Fleets

variable [DecidableEq ρ] (F : Files β) (fleet : τ → Boat ι β) (duty : ρ → Duty ι)

/-- The conditions, as a condition on a step of the run. -/
def CarefulStep (c : FleetConfig ι τ ρ β) (who : Party τ ρ) (e : Env) : Prop :=
  match (c.procs who).prog with
  | .call o _ => Careful F fleet e (c.procs who).last o c.shared
  | .ret _ => True

/-- The boat's record was put: it is there, or its waiters were acked. -/
def Committed (w : LegacyWorld ι τ β) (txn : τ) : Prop :=
  (w.get (.record txn)).isSome ∨ .answered txn none ∈ w.notes

/-- A recovery that begins after a boat's record was put, that rolls such records forward and that
returns, finds or leaves every item of the boat reflected. -/
def BoatsSurvive (c : FleetConfig ι τ ρ β) (moves : List (Party τ ρ × Env)) : Prop :=
  ∀ before between after, moves = before ++ between ++ after → ∀ txn r,
    Committed (c.run node before).shared txn →
    (c.run node (before ++ between)).procs (.recovery r) = .start ((duty r).prog F) →
    (duty r).wants (fleet txn).objects →
    ((c.run node moves).procs (.recovery r)).prog = .ret (.ok ()) →
    AllReflected F fleet (c.run node moves).shared txn

variable {F fleet duty}

omit [DecidableEq ρ] in
theorem CarefulStep.careful (c : FleetConfig ι τ ρ β) (who : Party τ ρ) (e : Env)
    (o : NodeOp (Key ι τ) (Blob ι τ β) (Note ι τ))
    (k : NodeOp.Answer o → LegacyTry ι τ β Unit) (h : CarefulStep F fleet c who e)
    (hp : (c.procs who).prog = .call o k) :
    Careful F fleet e (c.procs who).last o c.shared := by
  rw [CarefulStep, hp] at h
  exact h

omit [DecidableEq ρ] in
theorem sound_launch {blobs : Blobs (Key ι τ) (Blob ι τ β)}
    (hrecord : ∀ txn, blobs.lookup (.record txn) = none)
    (hstaging : ∀ txn name, blobs.lookup (.staging txn name) = none) :
    Sound F fleet (launch F fleet duty blobs).shared where
  record txn b hb := by
    rw [World.get, launch, hrecord] at hb
    cases hb
  staged txn name b hb := by
    rw [World.get, launch, hstaging] at hb
    cases hb
  kept txn hrec := by
    rw [World.get, launch, hrecord] at hrec
    cases hrec
  acked txn hmem := by cases hmem

theorem Committed.standing {w : LegacyWorld ι τ β} {txn : τ} (h : Committed w txn)
    (hs : Sound F fleet w) : Standing F fleet w txn :=
  h.elim .inl (hs.acked txn)

omit [DecidableEq ρ] in
/-- Every task keeps its contract, from a store with nothing but objects in it. -/
theorem contracts_launch {blobs : Blobs (Key ι τ) (Blob ι τ β)}
    (hs : Sound F fleet (launch F fleet duty blobs).shared) :
    Contracts node (Careful F fleet) (fun _ => Evolves F fleet) (fun _ => Evolves F fleet)
      (fun _ _ _ => True) (launch F fleet duty blobs) := by
  intro who
  cases who with
  | ship txn =>
    have hship : Runs F fleet (fun _ _ => True) (Party.prog F fleet duty (.ship txn))
        (launch F fleet duty blobs).shared :=
      Does.bind ((runs_shipTask txn _).mono fun _ _ _ => Does.ret fun _ _ => trivial)
    exact hship _
  | recovery r =>
    have hduty : Runs F fleet (fun _ _ => True) (Party.prog F fleet duty (.recovery r))
        (launch F fleet duty blobs).shared := (runs_duty (duty r) hs).mono fun _ _ _ => trivial
    exact hduty _

/-- What the tasks keep holds from one configuration of a careful run to any later one. -/
theorem evolves_reachable {blobs : Blobs (Key ι τ) (Blob ι τ β)}
    (hs : Sound F fleet (launch F fleet duty blobs).shared) {c d : FleetConfig ι τ ρ β}
    (hc : Reach node (CarefulStep F fleet) (launch F fleet duty blobs) c)
    (hd : Reach node (CarefulStep F fleet) c d) : Evolves F fleet c.shared d.shared :=
  ((contracts_launch hs).reach (fun _ _ _ _ _ => id) CarefulStep.careful hc).invariant
    (fun _ _ _ _ _ => id) CarefulStep.careful (fun _ _ _ hst hs => hs.trans hst) (.refl _) hd

/-- A recovery that has yet to begin also keeps a stronger contract, and is through in the end. -/
theorem recovery_through {blobs : Blobs (Key ι τ) (Blob ι τ β)}
    (hs : Sound F fleet (launch F fleet duty blobs).shared) {c d : FleetConfig ι τ ρ β}
    (hc : Reach node (CarefulStep F fleet) (launch F fleet duty blobs) c)
    (hd : Reach node (CarefulStep F fleet) c d) {r : ρ}
    (hstart : c.procs (.recovery r) = .start ((duty r).prog F))
    (hend : (d.procs (.recovery r)).prog = .ret (.ok ())) {txn : τ}
    (hwants : (duty r).wants (fleet txn).objects) (hstanding : Standing F fleet c.shared txn) :
    AllReflected F fleet d.shared txn := by
  have hcontracts := (contracts_launch hs).reach (fun _ _ _ _ _ => id) CarefulStep.careful hc
  have hsound := (evolves_reachable hs .refl hc).sound hs
  have hreached : Contracts node (Careful F fleet) (fun _ => Evolves F fleet)
      (fun _ => Evolves F fleet) (fun who a t => who = .recovery r → a = .ok () →
        ∀ txn, (duty r).wants (fleet txn).objects → Standing F fleet c.shared txn →
          AllReflected F fleet t txn) c := by
    intro who
    by_cases hwho : who = .recovery r
    · subst hwho
      rw [hstart]
      exact (runs_duty (duty r) hsound).mono (fun _ _ h _ => h) _
    · exact (hcontracts who).conseq (fun _ _ _ _ => id) (fun _ _ => id) (fun _ _ => id)
        fun _ _ _ h => absurd h hwho
  have hlast := hreached.reach (fun _ _ _ _ _ => id) CarefulStep.careful hd (.recovery r)
  rw [hend] at hlast
  exact hlast d.shared (.refl _) rfl rfl txn hwants hstanding

/-- In every run that is careful the boats survive. -/
theorem boats_survive {blobs : Blobs (Key ι τ) (Blob ι τ β)}
    (hrecord : ∀ txn, blobs.lookup (.record txn) = none)
    (hstaging : ∀ txn name, blobs.lookup (.staging txn name) = none)
    (moves : List (Party τ ρ × Env))
    (h : (launch F fleet duty blobs).Guarded node (CarefulStep F fleet) moves) :
    BoatsSurvive F fleet duty (launch F fleet duty blobs) moves := by
  rintro before between after rfl txn r hcommitted hstart hwants hend
  have hs : Sound F fleet (launch F fleet duty blobs).shared := sound_launch hrecord hstaging
  obtain ⟨hfirst, hafter⟩ := h.append
  obtain ⟨hbefore, hbetween⟩ := hfirst.append
  have hsound := (evolves_reachable hs .refl hbefore.reach).sound hs
  have hstanding := (evolves_reachable hs hbefore.reach hbetween.reach).standing txn
    (hcommitted.standing hsound)
  rw [← Config.run_append] at hstanding
  have hlast := hafter.reach
  rw [← Config.run_append] at hlast
  exact recovery_through hs hfirst.reach hlast hstart hend hwants hstanding

end Fleets

/-- Files that are numbers: their own counters, and too large to ride in a record. -/
def largeFiles : Files Nat := ⟨fun _ => inlineMaxBytes + 1, id⟩

/-- Boats that each carry a snapshot of object 0. -/
def snapshotFleet (txn : Nat) : Boat Nat Nat where
  items := [⟨0, .snapshot (txn + 1) true⟩]
  landing := [⟨0, .snapshot (txn + 1) true⟩]
  landing_perm := .refl _
  objects_nodup := List.nodup_singleton _

def bootDuty (_ : Nat) : Duty Nat := .boot

/-- A ship task stages its payload, passes the gate and puts its record, and its node crashes. -/
def committing : List (Party Nat Nat × Env) :=
  [(.ship 0, {}), (.ship 0, {}), (.ship 0, { verdict := false }), (.ship 0, {})]

def recovering (r n : Nat) : List (Party Nat Nat × Env) := List.replicate n (.recovery r, {})

/-- A recovery lists no records; a boat commits; the recovery sweeps the boat's payload away; and
the next recovery rolls its record forward. -/
def sweptPayload : List (Party Nat Nat × Env) :=
  recovering 0 1 ++ committing ++ recovering 0 3 ++ recovering 1 5

theorem swept_payload_lost : ¬ BoatsSurvive largeFiles snapshotFleet bootDuty
    (launch largeFiles snapshotFleet bootDuty ∅) sweptPayload := by
  intro h
  have hall := h (recovering 0 1 ++ committing) (recovering 0 3) (recovering 1 5) rfl 0 1
    (.inl (by decide)) rfl trivial rfl ⟨0, .snapshot 1 true⟩
    List.mem_cons_self
  rcases hall with ⟨base, hbase, _⟩ | ⟨_, _, hpayload, _⟩
  · cases hbase
  · cases hpayload

/-- The boat commits and its node crashes before a recovery begins. -/
def recoveredBoat : List (Party Nat Nat × Env) := committing ++ recovering 0 9

theorem boats_survive_recoveredBoat : BoatsSurvive largeFiles snapshotFleet bootDuty
    (launch largeFiles snapshotFleet bootDuty ∅) recoveredBoat := by
  refine boats_survive (fun _ => rfl) (fun _ _ => rfl) recoveredBoat ?_
  iterate 3 refine ⟨⟨trivial, trivial, trivial⟩, ?_⟩
  refine ⟨⟨?_, trivial, trivial⟩, ?_⟩
  · -- the one payload is staged when the record lands
    rintro _ _ item hitem
    rw [List.mem_singleton.mp hitem]
    rfl
  iterate 5 refine ⟨⟨trivial, trivial, trivial⟩, ?_⟩
  refine ⟨⟨trivial, trivial, fun _ held hheld => ?_⟩, ?_⟩
  · cases hheld
  iterate 3 refine ⟨⟨trivial, trivial, trivial⟩, ?_⟩
  trivial

end Fafo.Legacy
