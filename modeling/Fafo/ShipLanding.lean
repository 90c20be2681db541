import Fafo.Legacy
import Fafo.StoreRules

/-! What a ship task that promoted everything has done to the objects. -/
namespace Fafo.Legacy

open Interleave

variable {ι τ β α : Type} [DecidableEq ι] [DecidableEq τ]

/-- Every object key holds what it held. -/
def SameObjects (w w' : LegacyWorld ι τ β) : Prop :=
  ∀ key, objectsPrefix key = true → w'.get key = w.get key

/-- The operation is not one on the objects. -/
def OffObjects : NodeOp (Key ι τ) (Blob ι τ β) (Note ι τ) → Prop
  | .store (.put key _) | .store (.delete key) => objectsPrefix key = false
  | .store (.create _ _) => False
  | _ => True

theorem SameObjects.trans {w w' w'' : LegacyWorld ι τ β} (h : SameObjects w w')
    (h' : SameObjects w' w'') : SameObjects w w'' :=
  fun key hkey => (h' key hkey).trans (h key hkey)

theorem offObjects_exec (e : Env) (o : NodeOp (Key ι τ) (Blob ι τ β) (Note ι τ))
    (w : LegacyWorld ι τ β) (ho : OffObjects o) : SameObjects w (node.exec e o w).2 := by
  intro key hkey
  cases o with
  | ask q => rfl
  | now => rfl
  | note n => rfl
  | store o =>
    have heffect : (w.effect o).get key = w.get key := by
      cases o with
      | get k => rfl
      | list pre => rfl
      | create k b => exact ho.elim
      | put k b =>
        rw [World.get_put, if_neg]
        rintro rfl
        exact absurd (hkey.symm.trans ho) (by decide)
      | delete k =>
        rw [World.get_delete, if_neg]
        rintro rfl
        exact absurd (hkey.symm.trans ho) (by decide)
    change (exec e (.store o) w).2.get key = w.get key
    rcases exec_state e o w with h | h
    · rw [h]
    · rw [h, heffect]

/-- A program that stays off the objects leaves them. -/
theorem sameObjects_solo {p : LegacyTask ι τ β α} (hp : p.Only OffObjects) (env : Nat → Env)
    (n : Nat) (w : LegacyWorld ι τ β) : SameObjects w (p.solo node env n w).state :=
  hp.solo node env SameObjects (fun _ _ _ => rfl) (fun _ _ _ => SameObjects.trans)
    (fun e o w ho => offObjects_exec e o w ho) n w

section

omit [DecidableEq ι] [DecidableEq τ]

theorem offObjects_stageAll (txn : τ) (items : List (ShipItem ι β)) :
    (stageAll txn items).Only OffObjects := by
  induction items with
  | nil => trivial
  | cons item items ih =>
    refine ⟨rfl, fun r => ih.bind fun err => ?_⟩
    cases r <;> trivial

theorem offObjects_unstageAll (txn : τ) (items : List (ShipItem ι β)) :
    (unstageAll txn items).Only OffObjects := by
  induction items with
  | nil => trivial
  | cons item items ih => exact ⟨rfl, fun _ => ih⟩

theorem offObjects_gate :
    (gate : LegacyTask ι τ β (Option (ShipError ι))).Only OffObjects := by
  refine ⟨trivial, fun (held : Bool) => ?_⟩
  change Prog.Only _ (if held then _ else _)
  split
  · exact ⟨trivial, fun _ => trivial⟩
  · trivial

end

/-- What a garbage collection deletes: deltas that a snapshot of the boat has superseded. -/
def Superseded (F : Files β) (items : List (ShipItem ι β)) (key : Key ι τ) : Prop :=
  ∃ item ∈ items, ∃ bytes, item.payload = .snapshot bytes true ∧
    ∃ c ≤ F.changeCounter bytes, key = .delta item.object c

/-- Every object key holds what it held, or was a superseded delta. -/
def Swept (F : Files β) (items : List (ShipItem ι β)) (w w' : LegacyWorld ι τ β) : Prop :=
  ∀ key, objectsPrefix key = true →
    w'.get key = w.get key ∨ w'.get key = none ∧ Superseded F items key

/-- The operation is a deletion of a superseded delta, or reads. -/
def Sweeps (F : Files β) (items : List (ShipItem ι β))
    (o : NodeOp (Key ι τ) (Blob ι τ β) (Note ι τ)) : Prop :=
  o.IsRead ∨ ∃ key, Superseded F items key ∧ o = .store (.delete key)

theorem Swept.trans {F : Files β} {items : List (ShipItem ι β)} {w w' w'' : LegacyWorld ι τ β}
    (h : Swept F items w w') (h' : Swept F items w' w'') : Swept F items w w'' := by
  intro key hkey
  rcases h' key hkey with heq | hgone
  · rw [heq]
    exact h key hkey
  · exact .inr hgone

theorem sweeps_exec {F : Files β} {items : List (ShipItem ι β)} (e : Env)
    (o : NodeOp (Key ι τ) (Blob ι τ β) (Note ι τ)) (w : LegacyWorld ι τ β)
    (ho : Sweeps F items o) : Swept F items w (node.exec e o w).2 := by
  intro key _
  obtain hread | ⟨k, hk, rfl⟩ := ho
  · exact .inl (congrArg (World.get · key) (exec_read e hread w))
  · have heffect : (w.effect (.delete k)).get key = w.get key ∨
        (w.effect (.delete k)).get key = none ∧ Superseded F items key := by
      rw [World.get_delete]
      split
      · next heq => exact .inr ⟨rfl, heq ▸ hk⟩
      · exact .inl rfl
    change (exec e (.store (.delete k)) w).2.get key = w.get key ∨
      (exec e (.store (.delete k)) w).2.get key = none ∧ _
    rcases exec_state e (.delete k) w with h | h
    · exact .inl (by rw [h])
    · rw [h]
      exact heffect

omit [DecidableEq τ] in
theorem sweeps_gcKeys (F : Files β) {items : List (ShipItem ι β)} {item : ShipItem ι β}
    (hmem : item ∈ items) {bytes : β} (hpayload : item.payload = .snapshot bytes true)
    (keys : List (Key ι τ)) :
    (gcKeys item.object (F.changeCounter bytes) keys : LegacyTask ι τ β Unit).Only
      (Sweeps F items) := by
  induction keys with
  | nil => trivial
  | cons key keys ih =>
    rw [gcKeys]
    split
    · next hold =>
      obtain ⟨c, hc, hle⟩ := (Option.any_eq_true _ _).mp hold
      have hkey : key = .delta item.object c := by
        cases key <;> simp [parseDeltaCounter] at hc
        obtain ⟨rfl, rfl⟩ := hc
        rfl
      exact ⟨.inr ⟨key, ⟨item, hmem, bytes, hpayload, c, of_decide_eq_true hle, hkey⟩, rfl⟩,
        fun _ => ih⟩
    · exact ih

omit [DecidableEq τ] in
theorem sweeps_gcAll (F : Files β) {items : List (ShipItem ι β)} (rest : List (ShipItem ι β))
    (hrest : ∀ item ∈ rest, item ∈ items) :
    (gcAll F rest : LegacyTask ι τ β Unit).Only (Sweeps F items) := by
  induction rest with
  | nil => trivial
  | cons item rest ih =>
    obtain ⟨hmem, hrest⟩ := List.forall_mem_cons.mp hrest
    refine Prog.Only.bind ?_ fun _ => ih hrest
    split
    · next bytes hpayload =>
      refine ⟨.inl trivial, fun r => ?_⟩
      cases r with
      | ok keys => exact sweeps_gcKeys F hmem hpayload keys
      | error e => trivial
    · trivial

/-- Every payload is where it belongs, and no other object key has changed. -/
structure Promoted (items : List (ShipItem ι β)) (w w' : LegacyWorld ι τ β) : Prop where
  landed : ∀ item ∈ items, w'.get item.name.home = some (.bytes item.bytes)
  others : ∀ key, (∀ item ∈ items, item.name.home ≠ key) → w'.get key = w.get key

omit [DecidableEq ι] [DecidableEq τ] in
theorem home_object {i j : ShipItem ι β} (h : (i.name.home : Key ι τ) = j.name.home) :
    i.object = j.object := by
  obtain ⟨object, payload⟩ := i
  obtain ⟨object', payload'⟩ := j
  cases payload <;> cases payload' <;> simp_all [ShipItem.name, Name.home]

theorem promoteAll_solo (env : Nat → Env) (items : List (ShipItem ι β))
    (hnodup : (items.map (·.object)).Nodup) (n : Nat) (w : LegacyWorld ι τ β)
    (hall : ((promoteAll items).solo node env n w).answer = []) :
    Promoted items w ((promoteAll items).solo node env n w).state := by
  induction items generalizing n w with
  | nil => exact ⟨nofun, fun _ _ => rfl⟩
  | cons item items ih =>
    obtain ⟨hne, hnodup⟩ := List.nodup_cons.mp hnodup
    let put : StoreOp (Key ι τ) (Blob ι τ β) := .put item.name.home (.bytes item.bytes)
    have hput : Prog.solo node env (Store.put item.name.home (.bytes item.bytes)) n w =
        ⟨(exec (env n) (.store put) w).1, n + 1, (exec (env n) (.store put) w).2⟩ := rfl
    rw [promoteAll, Prog.solo_bind_of_eq node env hput, Prog.solo_bind] at hall ⊢
    by_cases hworks : (env n).fault = .none
    · rw [exec_works hworks] at hall ⊢
      have hrest := ih hnodup (n + 1) (w.effect put) hall
      have hget : ∀ key, (w.effect put).get key =
          if key = item.name.home then some (.bytes item.bytes) else w.get key :=
        fun key => World.get_put w _ key _
      have hapart : ∀ other ∈ items, (other.name.home : Key ι τ) ≠ item.name.home := by
        intro other hother heq
        exact hne (List.mem_map.mpr ⟨other, hother, home_object heq⟩)
      refine ⟨fun i hi => ?_, fun key hkey => ?_⟩
      · rcases List.mem_cons.mp hi with rfl | hi
        · change (Prog.solo node env (promoteAll items) (n + 1) (w.effect put)).state.get _ = _
          rw [hrest.others _ hapart, hget, if_pos rfl]
        · exact hrest.landed i hi
      · obtain ⟨hitem, hitems⟩ := List.forall_mem_cons.mp hkey
        change (Prog.solo node env (promoteAll items) (n + 1) (w.effect put)).state.get _ = _
        rw [hrest.others key hitems, hget, if_neg (Ne.symm hitem)]
    · rw [exec_errs hworks] at hall
      cases hall

theorem shipFailed_refuses (F : Files β) (env : Nat → Env) (txn : τ) (boat : Boat ι β)
    (err : ShipError ι) (n : Nat) (w : LegacyWorld ι τ β) :
    ((shipFailed F txn boat err).solo node env n w).answer.ok = false := by
  rw [shipFailed, Prog.solo_bind]
  rfl

/-- What a ship task that promoted everything leaves: every payload where it belongs, and no other
object key changed, superseded deltas apart. -/
structure Lands (F : Files β) (boat : Boat ι β) (w w' : LegacyWorld ι τ β) : Prop where
  landed : ∀ item ∈ boat.items, w'.get item.name.home = some (.bytes item.bytes)
  others : ∀ key, objectsPrefix key = true → (∀ item ∈ boat.items, item.name.home ≠ key) →
    w'.get key = w.get key ∨ w'.get key = none ∧ Superseded F boat.items key

theorem Lands.of_same {F : Files β} {boat : Boat ι β} {w w' w'' : LegacyWorld ι τ β}
    (h : SameObjects w w') (hl : Lands F boat w' w'') : Lands F boat w w'' := by
  refine ⟨hl.landed, fun key hkey hapart => ?_⟩
  rw [← h key hkey]
  exact hl.others key hkey hapart

omit [DecidableEq ι] [DecidableEq τ] in
/-- The deltas of an object whose snapshot is aboard are not aboard. -/
theorem not_superseded_home {F : Files β} {boat : Boat ι β} {item : ShipItem ι β}
    (hmem : item ∈ boat.items) : ¬ Superseded F boat.items (item.name.home : Key ι τ) := by
  rintro ⟨other, hother, bytes, hpayload, c, _, hkey⟩
  obtain ⟨object, payload⟩ := item
  cases payload with
  | snapshot _ _ => cases hkey
  | delta counter bytes' =>
    have hobject : object = other.object := by
      cases hkey
      rfl
    have hsame := List.inj_on_of_nodup_map boat.objects_nodup hmem hother hobject
    rw [← hsame] at hpayload
    cases hpayload

/-- The record landed. -/
theorem shipped_solo (F : Files β) (env : Nat → Env) (txn : τ) (boat : Boat ι β) (n : Nat)
    (w : LegacyWorld ι τ β)
    (hall : ((shipped F txn boat).solo node env n w).answer.unpromoted = []) :
    Lands F boat w ((shipped F txn boat).solo node env n w).state := by
  have hnote : Prog.solo node env (note (.answered txn none)) n w =
      ⟨(), n + 1, { w with notes := .answered txn none :: w.notes }⟩ := rfl
  rw [shipped, Prog.solo_bind_of_eq node env hnote, Prog.solo_bind, Prog.solo_bind] at hall ⊢
  generalize hw : ({ w with notes := .answered txn none :: w.notes } : LegacyWorld ι τ β) = w₁
    at hall ⊢
  have hsame : SameObjects w w₁ := by
    subst hw
    exact fun _ _ => rfl
  have hunpromoted : (Prog.solo node env (promoteAll boat.items) (n + 1) w₁).answer = [] := hall
  have hpromoted := promoteAll_solo env boat.items boat.objects_nodup (n + 1) w₁ hunpromoted
  rw [hunpromoted]
  refine .of_same hsame ?_
  -- what is left only tidies up
  have htidies : (((if boat.inline F then .ret () else unstageAll txn boat.items).bind fun _ =>
      (Store.delete (.record txn)).bind fun _ => gcAll F boat.items :
      LegacyTask ι τ β Unit)).Only fun o => OffObjects o ∨ Sweeps F boat.items o := by
    refine Prog.Only.bind ?_ fun _ => ⟨.inl rfl, fun _ => ?_⟩
    · split
      · trivial
      · exact (offObjects_unstageAll txn boat.items).mono fun _ => .inl
    · exact (sweeps_gcAll F boat.items fun _ => id).mono fun _ => .inr
  have hswept := htidies.solo node env (Swept F boat.items) (fun _ _ _ => .inl rfl)
    (fun _ _ _ => Swept.trans) (fun e o w ho => ho.elim
      (fun hoff key hkey => .inl (offObjects_exec e o w hoff key hkey)) (sweeps_exec e o w))
    (Prog.solo node env (promoteAll boat.items) (n + 1) w₁).next
    (Prog.solo node env (promoteAll boat.items) (n + 1) w₁).state
  refine ⟨fun item hmem => ?_, fun key hkey hapart => ?_⟩
  · have hkey : objectsPrefix (item.name.home : Key ι τ) = true := by
      unfold Name.home
      split <;> rfl
    rcases hswept _ hkey with heq | ⟨_, hsuperseded⟩
    · exact heq.trans (hpromoted.landed item hmem)
    · exact absurd hsuperseded (not_superseded_home hmem)
  · rcases hswept key hkey with heq | hgone
    · exact .inl (heq.trans (hpromoted.others key hapart))
    · exact .inr hgone

/-- A ship task that succeeds, and promotes everything, lands its boat. -/
theorem shipTask_solo (F : Files β) (env : Nat → Env) (txn : τ) (boat : Boat ι β) (n : Nat)
    (w : LegacyWorld ι τ β)
    (hok : ((shipTask F txn boat).solo node env n w).answer.ok = true)
    (hall : ((shipTask F txn boat).solo node env n w).answer.unpromoted = []) :
    Lands F boat w ((shipTask F txn boat).solo node env n w).state := by
  have hstage : (if boat.inline F then .ret none else stageAll txn boat.landing :
      LegacyTask ι τ β (Option Error)).Only OffObjects := by
    split
    · trivial
    · exact offObjects_stageAll txn boat.landing
  rw [shipTask, Prog.solo_bind] at hok hall ⊢
  refine .of_same (sameObjects_solo hstage env n w) ?_
  generalize Prog.solo node env _ n w = staged at hok hall ⊢
  obtain ⟨err, n₁, w₁⟩ := staged
  cases err with
  | some e =>
    rw [shipFailed_refuses] at hok
    cases hok
  | none =>
    dsimp only at hok hall ⊢
    rw [Prog.solo_bind] at hok hall ⊢
    refine .of_same (sameObjects_solo offObjects_gate env n₁ w₁) ?_
    generalize Prog.solo node env gate n₁ w₁ = gated at hok hall ⊢
    obtain ⟨err, n₂, w₂⟩ := gated
    cases err with
    | some err =>
      rw [shipFailed_refuses] at hok
      cases hok
    | none =>
      dsimp only at hok hall ⊢
      rw [Prog.solo_bind] at hok hall ⊢
      have hput : (Store.put (.record txn) (.record (boat.record F txn)) :
          LegacyTry ι τ β Unit).Only OffObjects := ⟨rfl, fun _ => trivial⟩
      refine .of_same (sameObjects_solo hput env n₂ w₂) ?_
      generalize Prog.solo node env (Store.put _ _) n₂ w₂ = put at hok hall ⊢
      obtain ⟨r, n₃, w₃⟩ := put
      cases r with
      | error e =>
        rw [shipFailed_refuses] at hok
        cases hok
      | ok _ => exact shipped_solo F env txn boat n₃ w₃ hall

theorem promoteAll_works {env : Nat → Env} (hworks : ∀ k, (env k).fault = .none)
    (items : List (ShipItem ι β)) (n : Nat) (w : LegacyWorld ι τ β) :
    ((promoteAll items).solo node env n w).answer = [] := by
  induction items generalizing n w with
  | nil => rfl
  | cons item items ih =>
    rw [promoteAll, Prog.solo_bind_of_eq node env (solo_put (hworks n) _ _ w), Prog.solo_bind]
    exact ih (n + 1) _

/-- A boat that rides in its record is shipped and promoted, where nothing fails and the gate lets
it through. -/
theorem shipTask_works (F : Files β) {env : Nat → Env} (hworks : ∀ k, (env k).fault = .none)
    {n : Nat} (hheld : (env n).verdict = true) (hfenced : (env (n + 1)).verdict = false) (txn : τ)
    {boat : Boat ι β} (hinline : boat.inline F = true) (w : LegacyWorld ι τ β) :
    ((shipTask F txn boat).solo node env n w).answer = ⟨boat.objects, true, []⟩ := by
  have hgate : Prog.solo node env gate n w = ⟨none, n + 2, w⟩ := by
    have hask : Prog.solo node env gate n w = Prog.solo node env (if (env n).verdict then
        (ask .fenced).bind fun fenced => .ret (if fenced then some .nodeFenced else none)
        else .ret (some .leaseSuperseded)) (n + 1) w := rfl
    rw [hask, hheld, if_pos rfl]
    change (⟨if (env (n + 1)).verdict then some .nodeFenced else none, n + 2, w⟩ :
      Ended _ (Option (ShipError ι))) = _
    rw [hfenced]
    rfl
  rw [shipTask, hinline, if_pos rfl, Prog.ret_bind]
  dsimp only
  rw [Prog.solo_bind_of_eq node env hgate]
  dsimp only
  rw [Prog.solo_bind_of_eq node env (solo_put (hworks (n + 2)) _ _ w)]
  dsimp only
  rw [shipped, Prog.solo_bind, Prog.solo_bind, Prog.solo_bind, promoteAll_works hworks]
  rfl

/-- The object's keys hold what they held. -/
structure SameObject (object : ι) (w w' : LegacyWorld ι τ β) : Prop where
  base : w'.get (.base object) = w.get (.base object)
  delta : ∀ c, w'.get (.delta object c) = w.get (.delta object c)

section Lands

variable {F : Files β} {boat : Boat ι β} {w w' : LegacyWorld ι τ β} {object : ι} {bytes : β}

omit [DecidableEq ι] [DecidableEq τ] in
theorem mem_objects_of_home {item : ShipItem ι β} (hmem : item ∈ boat.items) {n : Name ι}
    (h : (item.name.home : Key ι τ) = n.home) : n.object ∈ boat.objects := by
  obtain ⟨object, payload⟩ := item
  obtain ⟨object', kind⟩ := n
  have hobject : object = object' := by
    cases payload <;> cases kind <;> simp_all [ShipItem.name, Name.home]
  subst hobject
  exact List.mem_map.mpr ⟨_, hmem, rfl⟩

/-- A key that is no item's home, and not superseded, is left alone. -/
theorem Lands.kept (h : Lands F boat w w') {key : Key ι τ} (hkey : objectsPrefix key = true)
    (hapart : ∀ item ∈ boat.items, item.name.home ≠ key)
    (hlive : ¬ Superseded F boat.items key) : w'.get key = w.get key :=
  (h.others key hkey hapart).resolve_right fun hgone => hlive hgone.2

/-- An object that is not aboard is left alone. -/
theorem Lands.absent (h : Lands F boat w w') (hobject : object ∉ boat.objects) :
    SameObject object w w' := by
  refine ⟨h.kept rfl (fun item hmem heq => ?_) ?_, fun c => h.kept rfl (fun item hmem heq => ?_) ?_⟩
  · exact hobject (mem_objects_of_home hmem (n := ⟨object, .snap⟩) heq)
  · rintro ⟨_, _, _, _, _, _, hkey⟩
    cases hkey
  · exact hobject (mem_objects_of_home hmem (n := ⟨object, .delta c⟩) heq)
  · rintro ⟨item, hmem, _, _, _, _, hkey⟩
    cases hkey
    exact hobject (List.mem_map.mpr ⟨item, hmem, rfl⟩)

/-- A snapshot becomes the base, and no delta appears. -/
theorem Lands.snapshot (h : Lands F boat w w') {gc : Bool}
    (hmem : ⟨object, .snapshot bytes gc⟩ ∈ boat.items) :
    w'.get (.base object) = some (.bytes bytes) ∧
      ∀ c, (w'.get (.delta object c)).isSome → (w.get (.delta object c)).isSome := by
  refine ⟨h.landed _ hmem, fun c hc => ?_⟩
  have hapart : ∀ item ∈ boat.items, (item.name.home : Key ι τ) ≠ .delta object c := by
    intro item hitem heq
    have hsame := List.inj_on_of_nodup_map boat.objects_nodup hitem hmem
      (home_object (j := ⟨object, .delta c bytes⟩) heq)
    rw [hsame] at heq
    cases heq
  rcases h.others _ rfl hapart with heq | ⟨hnone, _⟩
  · rwa [heq] at hc
  · rw [hnone] at hc
    cases hc

/-- A delta appears, and nothing else changes. -/
theorem Lands.delta (h : Lands F boat w w') {c : Nat}
    (hmem : ⟨object, .delta c bytes⟩ ∈ boat.items) :
    w'.get (.base object) = w.get (.base object) ∧
      w'.get (.delta object c) = some (.bytes bytes) ∧
      ∀ c', c' ≠ c → w'.get (.delta object c') = w.get (.delta object c') := by
  have hown : ∀ item ∈ boat.items, item.object = object → item = ⟨object, .delta c bytes⟩ :=
    fun item hitem heq => List.inj_on_of_nodup_map boat.objects_nodup hitem hmem heq
  refine ⟨h.kept rfl (fun item hitem heq => ?_) ?_, h.landed _ hmem, fun c' hc' => ?_⟩
  · rw [hown item hitem (home_object (j := ⟨object, .snapshot bytes true⟩) heq)] at heq
    cases heq
  · rintro ⟨_, _, _, _, _, _, hkey⟩
    cases hkey
  · refine h.kept rfl (fun item hitem heq => ?_) ?_
    · rw [hown item hitem (home_object (j := ⟨object, .delta c' bytes⟩) heq)] at heq
      cases heq
      exact hc' rfl
    · rintro ⟨item, hitem, _, hpayload, _, _, hkey⟩
      cases hkey
      rw [hown item hitem rfl] at hpayload
      cases hpayload

end Lands

end Fafo.Legacy
