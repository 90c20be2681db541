import Mathlib.Order.Basic
import Fafo.Boot

/-! When the staging ids and the session ids of different boots are distinct. -/
namespace Fafo.Boot

open Interleave

variable {β : Type}

theorem digitChar_inj : ∀ a < 16, ∀ b < 16, Nat.digitChar a = Nat.digitChar b → a = b := by decide

theorem hex8_toList (h : UInt32) : (hex8 h).toList =
    (List.range 8).map fun k => Nat.digitChar (h.toNat / 16 ^ (7 - k) % 16) := by
  rw [hex8, String.toList_ofList]

theorem hex8_length (h : UInt32) : (hex8 h).toList.length = 8 := by
  simp [hex8_toList]

/-- A number is known by its digits. -/
theorem eq_of_hexDigits {n a b : Nat} (ha : a < 16 ^ n) (hb : b < 16 ^ n)
    (h : ∀ k < n, a / 16 ^ k % 16 = b / 16 ^ k % 16) : a = b := by
  induction n generalizing a b with
  | zero => omega
  | succ n ih =>
    rw [Nat.pow_succ] at ha hb
    have hlow := h 0 (Nat.succ_pos n)
    have hhigh : a / 16 = b / 16 := by
      apply ih
      · omega
      · omega
      · intro k hk
        have hdigit := h (k + 1) (by omega)
        rwa [Nat.pow_succ, Nat.mul_comm, ← Nat.div_div_eq_div_mul,
          ← Nat.div_div_eq_div_mul] at hdigit
    rw [Nat.pow_zero, Nat.div_one, Nat.div_one] at hlow
    omega

theorem hex8_injective {a b : UInt32} (h : hex8 a = hex8 b) : a = b := by
  have hlist := congrArg String.toList h
  rw [hex8_toList, hex8_toList, List.map_inj_left] at hlist
  apply UInt32.toNat_inj.mp
  apply eq_of_hexDigits (n := 8) a.toNat_lt b.toNat_lt
  intro k hk
  have hdigit := digitChar_inj _ (Nat.mod_lt _ (by decide)) _ (Nat.mod_lt _ (by decide))
    (hlist (7 - k) (List.mem_range.mpr (by omega)))
  rwa [show 7 - (7 - k) = k by omega] at hdigit

/-- Neither hexadecimal nor decimal digits hold the dash of an id, or the `o` of "boot". -/
theorem notMem_digits {c : Char} (hc : ∀ a < 16, Nat.digitChar a ≠ c) (hdigit : ¬ c.isDigit)
    (h : UInt32) (n : Nat) : c ∉ (hex8 h).toList ∧ c ∉ (toString n).toList := by
  constructor
  · intro hmem
    rw [hex8_toList] at hmem
    obtain ⟨k, _, hk⟩ := List.mem_map.mp hmem
    exact hc _ (Nat.mod_lt _ (by decide)) hk
  · intro hmem
    rw [Nat.toString_eq_repr, Nat.toList_repr] at hmem
    exact hdigit (Nat.isDigit_of_mem_toDigits (by decide) (by decide) hmem)

theorem dash_notMem_toString (n : Nat) : '-' ∉ (toString n).toList :=
  (notMem_digits (by decide) (by decide) 0 n).2

theorem toString_injective {m n : Nat} (h : (toString m).toList = (toString n).toList) : m = n :=
  Nat.repr_injective (String.toList_inj.mp h)

theorem Node.tag_toList (n : Node β) : n.tag.toList =
    match n.nonce with
    | none => ['b', 'o', 'o', 't']
    | some nonce => (hex8 (addressHash n.advertise)).toList ++ 'b' :: (toString nonce).toList := by
  unfold Node.tag
  cases n.nonce with
  | none => simp
  | some nonce =>
    rw [String.toList_append, String.toList_append, List.append_assoc]
    rfl

theorem notMem_tag {c : Char} (hc : ∀ a < 16, Nat.digitChar a ≠ c) (hdigit : ¬ c.isDigit)
    {n : Node β} (hn : n.nonce = none → c ∉ ['b', 'o', 'o', 't']) : c ∉ n.tag.toList := by
  rw [Node.tag_toList]
  cases h : n.nonce with
  | none => exact hn h
  | some nonce =>
    obtain ⟨hhash, hnonce⟩ := notMem_digits hc hdigit (addressHash n.advertise) nonce
    have hb : c ≠ 'b' := (hc 11 (by decide)).symm
    rw [List.mem_append, List.mem_cons]
    rintro (h | h | h)
    · exact hhash h
    · exact hb h
    · exact hnonce h

/-- A tag can be read back: eight digits, then the nonce; and only "boot" has an `o`. -/
theorem tag_eq_iff {a b : Node β} : a.tag = b.tag ↔
    a.nonce = b.nonce ∧ (a.nonce.isSome → addressHash a.advertise = addressHash b.advertise) := by
  have hnone : ∀ {n : Node β}, n.nonce.isSome → 'o' ∉ n.tag.toList := fun {n} h =>
    notMem_tag (by decide) (by decide) fun hn => absurd h (by rw [hn]; decide)
  have hboot : ∀ {n : Node β}, n.nonce = none → 'o' ∈ n.tag.toList := fun {n} h => by
    rw [Node.tag_toList, h]
    simp
  constructor
  · intro h
    cases ha : a.nonce with
    | none =>
      cases hb : b.nonce with
      | none => exact ⟨rfl, nofun⟩
      | some v => exact absurd (h ▸ hboot ha) (hnone (by rw [hb]; rfl))
    | some u =>
      cases hb : b.nonce with
      | none => exact absurd (hboot hb) (h ▸ hnone (by rw [ha]; rfl))
      | some v =>
        have hlist := congrArg String.toList h
        rw [Node.tag_toList, Node.tag_toList, ha, hb] at hlist
        obtain ⟨hhash, hrest⟩ := List.append_inj hlist (by rw [hex8_length, hex8_length])
        obtain ⟨_, hnonce⟩ := List.cons.inj hrest
        rw [toString_injective hnonce]
        exact ⟨rfl, fun _ => hex8_injective (String.toList_inj.mp hhash)⟩
  · rintro ⟨hnonce, hhash⟩
    unfold Node.tag
    rw [← hnonce]
    cases h : a.nonce with
    | none => rfl
    | some u => rw [hhash (by rw [h]; rfl)]

/-- An id can be read back: the tag up to the dash, then the number. -/
theorem id_eq_iff {a b : Node β} {m n : Nat} : a.id m = b.id n ↔ a.tag = b.tag ∧ m = n := by
  have hdash : ∀ c : Node β, '-' ∉ c.tag.toList := fun c =>
    notMem_tag (by decide) (by decide) fun _ => by decide
  constructor
  · intro h
    have hlist := congrArg String.toList h
    simp only [Node.id, String.toList_append, List.append_assoc] at hlist
    obtain ⟨htag, _, hvalue⟩ := (List.append_cons_inj_of_notMem (hdash a)
      (dash_notMem_toString m)).mp hlist
    exact ⟨String.toList_inj.mp htag, toString_injective hvalue⟩
  · rintro ⟨htag, rfl⟩
    rw [Node.id, Node.id, htag]

/-- Neither boot has its tag yet; or both have, for addresses of one hash, and both failed in all
their attempts, or both drew a nonce and the store's versions do not count. -/
def Alike (b : Backend) (x y : Node β) : Prop :=
  x.nonce = none ∧ y.nonce = none ∨
    addressHash x.advertise = addressHash y.advertise ∧
      (x.nonce = some 0 ∧ y.nonce = some 0 ∨
        (∃ u ≠ 0, x.nonce = some u) ∧ (∃ v ≠ 0, y.nonce = some v) ∧ b ≠ .mem)

/-- The number has not been used by another boot that is like this one. -/
def Unused (b : Backend) (issued : List (Issue β)) (n : Node β) (value : Nat) : Prop :=
  ∀ x ∈ issued, x.node.boot ≠ n.boot → Alike b x.node n → x.value ≠ value

variable [DecidableEq β]

/-- A boat takes a number that no boot like this one has shipped under, and a frame comes over a
connection whose number no boot like this one has used for a session. -/
def Fresh (b : Backend) (w : World β) : Task β Unit → Prop
  | .call (Op.ship n) _ => Unused b (w.issued .ship) n (w.next .ship n.boot)
  | .call (Op.session n conn) _ =>
    (n.boot, conn) ∈ w.opened → Unused b (w.issued .conn) n conn
  | _ => True

def FreshNext (b : Backend) (c : Fleet β) (m : β × Option Nat) (_ : Fault) : Prop :=
  Fresh b c.shared (c.procs m).prog

/-- No two boats share a staging id, and no two connections of different boots a session id. -/
def IdsDistinct (c : Fleet β) : Prop :=
  (c.shared.issued .ship).Pairwise (fun x y => x.id ≠ y.id) ∧
    ∀ x ∈ c.shared.issued .conn, ∀ y ∈ c.shared.issued .conn,
      x.node.boot ≠ y.node.boot → x.id ≠ y.id

variable {b : Backend} {plan : β → Plan}

/-- The nonces held so far; one of 0 is held by a boot that failed in all its attempts. -/
structure Nonces (b : Backend) (plan : β → Plan) (w : World β) (held : β → Option Nat) : Prop where
  counted : b = .mem → ∀ i v, held i = some v → v ≤ w.highWater (bootKey (plan i).advertise)
  distinct : b = .mem → ∀ i j v, addressHash (plan i).advertise = addressHash (plan j).advertise →
    v ≠ 0 → held i = some v → held j = some v → i = j
  flat : b ≠ .mem → ∀ i v, held i = some v → v = 0 ∨ v = 1

/-- A node as its boot has been seen: with the nonce it holds, or before it was named. -/
def Known (plan : β → Plan) (held : β → Option Nat) (n : Node β) : Prop :=
  n.advertise = (plan n.boot).advertise ∧ (n.nonce = none ∨ n.nonce = held n.boot)

/-- What has been issued was issued to nodes known, and each boat of a boot took a number of its
own. -/
structure Ids (plan : β → Plan) (w : World β) (held : β → Option Nat) : Prop where
  known : ∀ k, ∀ x ∈ w.issued k, Known plan held x.node
  value : ∀ x ∈ w.issued .ship, x.value < w.next .ship x.node.boot
  ships : (w.issued .ship).Pairwise fun x y => x.id ≠ y.id
  sessions : ∀ x ∈ w.issued .conn, ∀ y ∈ w.issued .conn, x.node.boot ≠ y.node.boot → x.id ≠ y.id

/-- Versions only rise, and boot keys stay. -/
structure Later (w w' : World β) : Prop where
  highWater : ∀ key, w.highWater key ≤ w'.highWater key
  present : ∀ key, (w.blobs.lookup key).isSome → (w'.blobs.lookup key).isSome

/-- What an operation on the store does. -/
structure Quiet (w w' : World β) : Prop where
  later : Later w w'
  tags : w'.tags = w.tags
  next : w'.next = w.next
  issued : w'.issued = w.issued

section

omit [DecidableEq β]

theorem quiet_refl (w : World β) : Quiet w w := ⟨⟨fun _ => le_rfl, fun _ => id⟩, rfl, rfl, rfl⟩

theorem present_put (w : World β) (key other : String) (bytes : Bytes) :
    ((w.put key bytes).blobs.lookup other).isSome ↔
      other = key ∨ (w.blobs.lookup other).isSome := by
  change ((w.blobs.insert key bytes).lookup other).isSome ↔ _
  by_cases h : other = key
  · subst h
    simp
  · simp [h, AList.lookup_insert_ne h]

theorem quiet_put (w : World β) (key : String) (bytes : Bytes) : Quiet w (w.put key bytes) :=
  ⟨⟨fun _ => le_rfl, fun _ hk => (present_put ..).mpr (.inr hk)⟩, rfl, rfl, rfl⟩

theorem quiet_putCas (w : World β) (key : String) (expected : Nat) (bytes : Bytes) :
    Quiet w (w.putCas key expected bytes).2 := by
  unfold World.putCas
  split_ifs
  · exact quiet_refl w
  · refine ⟨⟨fun k => ?_, fun k hk => (present_put w key k bytes).mpr (.inr hk)⟩, rfl, rfl, rfl⟩
    change (w.versions.lookup k).getD 0 ≤
      ((w.versions.insert key (w.highWater key + 1)).lookup k).getD 0
    by_cases h : k = key
    · subst h
      simp [World.highWater]
    · rw [AList.lookup_insert_ne h]

/-- A nonce drawn from a store that counts is one the key's versions have just reached. -/
theorem putCas_won {w w' : World β} {key : String} {expected v : Nat} {bytes : Bytes}
    (h : w.putCas key expected bytes = (some v, w')) :
    v = w.highWater key + 1 ∧ v ≤ w'.highWater key := by
  unfold World.putCas at h
  split_ifs at h
  · cases h
  · cases h
    refine ⟨rfl, ?_⟩
    change _ ≤ ((w.versions.insert key _).lookup key).getD 0
    simp

end

/-- What follows an attempt to draw a nonce. -/
def settle (b : Backend) (p : Plan) (attempts : Nat) :
    Except Error (Option Nat) → Task β Nat
  | .ok (some v) => .ret v
  | _ => drawNonce b (bootKey p.advertise) p.advertise attempts

/-- The parts of an attempt. -/
inductive Attempt (b : Backend) (p : Plan) (w : World β) : Task β (Except Error (Option Nat)) → Prop
  | cas (expected : Nat) : Attempt b p w (putCas b (bootKey p.advertise) expected p.advertise)
  | put (hb : b ≠ .mem) : Attempt b p w
      ((Prog.call (Op.put (bootKey p.advertise) p.advertise) Prog.ret :
        Task β (Except Error Unit)).attempt fun _ =>
          (version b (bootKey p.advertise)).attempt fun v => .ret (.ok (some v)))
  | reread (hb : b ≠ .mem) (h : (w.blobs.lookup (bootKey p.advertise)).isSome) :
      Attempt b p w ((version b (bootKey p.advertise)).attempt fun v => .ret (.ok (some v)))

/-- What an attempt that won has drawn. -/
def Won (b : Backend) (key : String) (w w' : World β) (v : Nat) : Prop :=
  if b = .mem then v = w.highWater key + 1 ∧ v ≤ w'.highWater key else v = 1

theorem Attempt.move {p : Plan} {w : World β} {q : Task β (Except Error (Option Nat))}
    (h : Attempt b p w q) (e : Fault) :
    Quiet w (q.move machine e w).2 ∧
      (Attempt b p (q.move machine e w).2 (q.move machine e w).1 ∨
        ∃ r, (q.move machine e w).1 = .ret r ∧
          ∀ v, r = .ok (some v) → Won b (bootKey p.advertise) w (q.move machine e w).2 v) := by
  cases h with
  | cas expected =>
    by_cases hb : b = .mem
    · subst hb
      have hput := quiet_putCas w (bootKey p.advertise) expected p.advertise
      cases e with
      | none =>
        refine ⟨hput, .inr ⟨_, rfl, fun v hv => ?_⟩⟩
        rw [Won, if_pos rfl]
        exact putCas_won (Prod.ext (Except.ok.inj hv) rfl)
      | failed => exact ⟨quiet_refl w, .inr ⟨_, rfl, nofun⟩⟩
      | lost => exact ⟨hput, .inr ⟨_, rfl, nofun⟩⟩
    · have hcheck : (putCas b (bootKey p.advertise) expected p.advertise :
          Task β (Except Error (Option Nat))).move machine e w =
          (match e with
            | .none =>
              if (if (w.blobs.lookup (bootKey p.advertise)).isSome then 1 else 0) ≠ expected
              then .ret (.ok none)
              else (Prog.call (Op.put (bootKey p.advertise) p.advertise) Prog.ret :
                Task β (Except Error Unit)).attempt fun _ =>
                  (version b (bootKey p.advertise)).attempt fun v => .ret (.ok (some v))
            | _ => .ret (.error .unavailable), w) := by
        cases b with
        | mem => exact absurd rfl hb
        | fs => cases e <;> rfl
        | r2 => cases e <;> rfl
      rw [hcheck]
      refine ⟨quiet_refl w, ?_⟩
      cases e with
      | none =>
        dsimp only
        split_ifs
        · exact .inr ⟨_, rfl, nofun⟩
        · exact .inl (.put hb)
        · exact .inr ⟨_, rfl, nofun⟩
        · exact .inl (.put hb)
      | failed => exact .inr ⟨_, rfl, nofun⟩
      | lost => exact .inr ⟨_, rfl, nofun⟩
  | put hb =>
    have hput := quiet_put w (bootKey p.advertise) p.advertise
    cases e with
    | none => exact ⟨hput, .inl (.reread hb ((present_put ..).mpr (.inl rfl)))⟩
    | failed => exact ⟨quiet_refl w, .inr ⟨_, rfl, nofun⟩⟩
    | lost => exact ⟨hput, .inr ⟨_, rfl, nofun⟩⟩
  | reread hb hpresent =>
    have hread : ((version b (bootKey p.advertise)).attempt fun v => .ret (.ok (some v)) :
        Task β (Except Error (Option Nat))).move machine e w =
        (match e with
          | .none =>
            .ret (.ok (some (if (w.blobs.lookup (bootKey p.advertise)).isSome then 1 else 0)))
          | _ => .ret (.error .unavailable), w) := by
      cases b with
      | mem => exact absurd rfl hb
      | fs => cases e <;> rfl
      | r2 => cases e <;> rfl
    rw [hread]
    refine ⟨quiet_refl w, .inr ?_⟩
    cases e with
    | none =>
      refine ⟨_, rfl, fun v hv => ?_⟩
      rw [if_pos hpresent] at hv
      cases hv
      rw [Won, if_neg hb]
    | failed => exact ⟨_, rfl, nofun⟩
    | lost => exact ⟨_, rfl, nofun⟩

omit [DecidableEq β] in
theorem Attempt.later {p : Plan} {w w' : World β} {q : Task β (Except Error (Option Nat))}
    (h : Attempt b p w q) (hw : Later w w') : Attempt b p w' q := by
  cases h with
  | cas expected => exact .cas expected
  | put hb => exact .put hb
  | reread hb hpresent => exact .reread hb (hw.present _ hpresent)

/-- What `start` has left to do, and the nonce its boot holds. -/
inductive Stage (b : Backend) (p : Plan) (w : World β) (i : β) : Option Nat → Task β Unit → Prop
  | version (attempts : Nat) (hnew : w.tags i = none) : Stage b p w i none
      ((drawNonce b (bootKey p.advertise) p.advertise (attempts + 1)).bind fun nonce =>
        .call (Op.setTag i nonce) .ret)
  | attempt (attempts : Nat) {q : Task β (Except Error (Option Nat))} (hq : Attempt b p w q)
      (hnew : w.tags i = none) : Stage b p w i none
      ((q.bind (settle b p attempts)).bind fun nonce => .call (Op.setTag i nonce) .ret)
  | naming (nonce : Nat) (hnew : w.tags i = none) :
      Stage b p w i (some nonce) (.call (Op.setTag i nonce) .ret)
  | named (nonce : Nat) (hset : w.tags i = some nonce) : Stage b p w i (some nonce) (.ret ())

variable {p : Plan} {w w' : World β} {i : β} {held : Option Nat} {prog : Task β Unit}

omit [DecidableEq β] in
theorem Stage.tag (h : Stage b p w i held prog) : w.tags i = none ∨ w.tags i = held := by
  cases h with
  | version attempts hnew => exact .inl hnew
  | attempt attempts hq hnew => exact .inl hnew
  | naming nonce hnew => exact .inl hnew
  | named nonce hset => exact .inr hset

omit [DecidableEq β] in
/-- The steps of other processes do not matter. -/
theorem Stage.later (h : Stage b p w i held prog) (hw : Later w w') (htags : w'.tags i = w.tags i) :
    Stage b p w' i held prog := by
  cases h with
  | version attempts hnew => exact .version attempts (htags.trans hnew)
  | attempt attempts hq hnew => exact .attempt attempts (hq.later hw) (htags.trans hnew)
  | naming nonce hnew => exact .naming nonce (htags.trans hnew)
  | named nonce hset => exact .named nonce (htags.trans hset)

/-- What one operation of `start` does: it works on the store, it settles the nonce, which is 0
after the last failure, or it names the boot. -/
inductive Moved (b : Backend) (p : Plan) (w : World β) (i : β) :
    Option Nat → World β → Option Nat → Prop
  | quiet {held : Option Nat} {w' : World β} (h : Quiet w w') : Moved b p w i held w' held
  | settled {w' : World β} {v : Nat} (h : Quiet w w')
      (hwon : v ≠ 0 → Won b (bootKey p.advertise) w w' v) : Moved b p w i none w' (some v)
  | named (nonce : Nat) : Moved b p w i (some nonce) (w.setTag i nonce) (some nonce)

/-- Reading the version, whichever it is, leads on to the swap. -/
theorem move_version (b : Backend) (p : Plan) (w : World β) (i : β) (attempts : Nat) (e : Fault) :
    ∃ v, ((drawNonce b (bootKey p.advertise) p.advertise (attempts + 1)).bind fun nonce =>
      .call (Op.setTag i nonce) .ret : Task β Unit).move machine e w =
      (((putCas b (bootKey p.advertise) v p.advertise).bind (settle b p attempts)).bind fun nonce =>
        .call (Op.setTag i nonce) .ret, w) := by
  cases b with
  | mem => cases e <;> exact ⟨_, rfl⟩
  | fs => cases e <;> exact ⟨_, rfl⟩
  | r2 => cases e <;> exact ⟨_, rfl⟩

theorem Attempt.move_bind {q : Task β (Except Error (Option Nat))} (h : Attempt b p w q)
    (f : Except Error (Option Nat) → Task β Nat) (g : Nat → Task β Unit)
    (e : Fault) : ((q.bind f).bind g).move machine e w =
      (((q.move machine e w).1.bind f).bind g, (q.move machine e w).2) := by
  cases h with
  | cas expected => cases b <;> rfl
  | put hb => rfl
  | reread hb hpresent => cases b <;> rfl

/-- After an attempt that failed there is another, or the nonce stays 0. -/
theorem Stage.retry (attempts : Nat) (hw : Quiet w w') (hnew : w.tags i = none) :
    ∃ held', Stage b p w' i held'
      ((drawNonce b (bootKey p.advertise) p.advertise attempts).bind fun nonce =>
        .call (Op.setTag i nonce) .ret) ∧ Moved b p w i none w' held' := by
  have hnew' : w'.tags i = none := hw.tags ▸ hnew
  cases attempts with
  | zero => exact ⟨some 0, .naming 0 hnew', .settled hw fun h => absurd rfl h⟩
  | succ attempts => exact ⟨none, .version attempts hnew', .quiet hw⟩

theorem Stage.move (h : Stage b p w i held prog) (e : Fault) :
    ∃ held', Stage b p (prog.move machine e w).2 i held' (prog.move machine e w).1 ∧
      Moved b p w i held (prog.move machine e w).2 held' := by
  cases h with
  | version attempts hnew =>
    obtain ⟨v, hmove⟩ := move_version b p w i attempts e
    rw [hmove]
    exact ⟨none, .attempt attempts (.cas v) hnew, .quiet (quiet_refl w)⟩
  | attempt attempts hq hnew =>
    rw [hq.move_bind]
    obtain ⟨hquiet, hrest | ⟨r, hr, hwon⟩⟩ := hq.move e
    · exact ⟨none, .attempt attempts hrest (hquiet.tags ▸ hnew), .quiet hquiet⟩
    · rw [hr]
      match r, hwon with
      | .ok (some v), hwon =>
        exact ⟨some v, .naming v (hquiet.tags ▸ hnew), .settled hquiet fun _ => hwon v rfl⟩
      | .ok none, _ => exact Stage.retry attempts hquiet hnew
      | .error _, _ => exact Stage.retry attempts hquiet hnew
  | naming nonce hnew =>
    refine ⟨some nonce, .named nonce ?_, .named nonce⟩
    change (w.setTag i nonce).tags i = some nonce
    simp [World.setTag, hnew]
  | named nonce hset => exact ⟨some nonce, .named nonce hset, .quiet (quiet_refl w)⟩

/-- The others see a step of a `start` as later versions at most. -/
theorem Moved.frame {held' : Option Nat} (h : Moved b p w i held w' held') :
    Later w w' ∧ (∀ j, j ≠ i → w'.tags j = w.tags j) ∧ w'.next = w.next ∧
      w'.issued = w.issued := by
  cases h with
  | quiet h => exact ⟨h.later, fun j _ => congrFun h.tags j, h.next, h.issued⟩
  | settled h => exact ⟨h.later, fun j _ => congrFun h.tags j, h.next, h.issued⟩
  | named nonce =>
    unfold World.setTag
    split_ifs
    · exact ⟨⟨fun _ => le_rfl, fun _ => id⟩, fun _ _ => rfl, rfl, rfl⟩
    · exact ⟨⟨fun _ => le_rfl, fun _ => id⟩, fun j hj => Function.update_of_ne hj _ _, rfl, rfl⟩

/-- A nonce once held stays. -/
theorem Moved.kept {held' : Option Nat} (h : Moved b p w i held w' held') :
    held = none ∨ held' = held := by
  cases h with
  | quiet => exact .inr rfl
  | settled => exact .inl rfl
  | named => exact .inr rfl

/-- What a task has left to do: the tag it last read was not set yet, or names the boot. -/
inductive Serving (p : Plan) (i : β) (held : Option Nat) : Task β Unit → Prop
  | next (work : List Work) : Serving p i held (serve i p.advertise work)
  | ship (nonce : Option Nat) (work : List Work) (hnonce : nonce = none ∨ nonce = held) :
      Serving p i held
        (.call (Op.ship ⟨i, p.advertise, nonce⟩) fun _ => serve i p.advertise work)
  | session (nonce : Option Nat) (conn : Nat) (work : List Work)
      (hnonce : nonce = none ∨ nonce = held) : Serving p i held
        (.call (Op.session ⟨i, p.advertise, nonce⟩ conn) fun _ => serve i p.advertise work)

omit [DecidableEq β] in
theorem read_later {nonce held held' : Option Nat} (h : nonce = none ∨ nonce = held)
    (hheld : held = none ∨ held' = held) : nonce = none ∨ nonce = held' := by
  rcases hheld with rfl | rfl
  · exact .inl (h.elim id id)
  · exact h

omit [DecidableEq β] in
theorem Serving.later {held' : Option Nat} (h : Serving p i held prog)
    (hheld : held = none ∨ held' = held) : Serving p i held' prog := by
  cases h with
  | next work => exact .next work
  | ship nonce work hnonce => exact .ship nonce work (read_later hnonce hheld)
  | session nonce conn work hnonce => exact .session nonce conn work (read_later hnonce hheld)

theorem Serving.move (h : Serving p i held prog) (htag : w.tags i = none ∨ w.tags i = held)
    (e : Fault) : Serving p i held (prog.move machine e w).1 := by
  cases h with
  | next work =>
    cases work with
    | nil => exact .next []
    | cons next work =>
      cases next with
      | ship => exact .ship _ work htag
      | connect => exact .next work
      | session conn => exact .session _ conn work htag
      | poll => exact .next work
  | ship nonce work hnonce => exact .next work
  | session nonce conn work hnonce => exact .next work

/-- The tasks of a node leave the store and the tags alone. -/
theorem Serving.frame (h : Serving p i held prog) (e : Fault) :
    (prog.move machine e w).2.blobs = w.blobs ∧ (prog.move machine e w).2.versions = w.versions ∧
      (prog.move machine e w).2.tags = w.tags := by
  cases h with
  | next work =>
    cases work with
    | nil => exact ⟨rfl, rfl, rfl⟩
    | cons next work => cases next <;> exact ⟨rfl, rfl, rfl⟩
  | ship nonce work hnonce => exact ⟨rfl, rfl, rfl⟩
  | session nonce conn work hnonce =>
    change (w.session _ conn).blobs = w.blobs ∧ (w.session _ conn).versions = w.versions ∧
      (w.session _ conn).tags = w.tags
    unfold World.session
    split_ifs <;> exact ⟨rfl, rfl, rfl⟩

omit [DecidableEq β] in
/-- Boots have one tag exactly when they are alike. -/
theorem Nonces.tag_eq_iff {held : β → Option Nat} (h : Nonces b plan w held) {x y : Node β}
    (hx : Known plan held x) (hy : Known plan held y) (hne : x.boot ≠ y.boot) :
    x.tag = y.tag ↔ Alike b x y := by
  have hheld : ∀ {n : Node β} {v : Nat}, Known plan held n → n.nonce = some v →
      held n.boot = some v := by
    intro n v hn hv
    rcases hn.2 with hnone | hsome
    · rw [hnone] at hv
      cases hv
    · rw [← hsome, hv]
  rw [Boot.tag_eq_iff]
  constructor
  · rintro ⟨hnonce, hhash⟩
    cases hu : x.nonce with
    | none => exact .inl ⟨hu, hnonce.symm.trans hu⟩
    | some u =>
      have hu' : y.nonce = some u := hnonce.symm.trans hu
      have hhash := hhash (by rw [hu]; rfl)
      refine .inr ⟨hhash, ?_⟩
      by_cases hzero : u = 0
      · subst hzero
        exact .inl ⟨hu, hu'⟩
      · refine .inr ⟨⟨u, hzero, hu⟩, ⟨u, hzero, hu'⟩, fun hb => hne ?_⟩
        rw [hx.1, hy.1] at hhash
        exact h.distinct hb _ _ u hhash hzero (hheld hx hu) (hheld hy hu')
  · rintro (⟨hu, hv⟩ | ⟨hhash, ⟨hu, hv⟩ | ⟨⟨u, hu0, hu⟩, ⟨v, hv0, hv⟩, hb⟩⟩)
    · exact ⟨hu.trans hv.symm, fun hsome => absurd hsome (by rw [hu]; decide)⟩
    · exact ⟨hu.trans hv.symm, fun _ => hhash⟩
    · obtain rfl : u = 1 := (h.flat hb _ u (hheld hx hu)).resolve_left hu0
      obtain rfl : v = 1 := (h.flat hb _ v (hheld hy hv)).resolve_left hv0
      exact ⟨hu.trans hv.symm, fun _ => hhash⟩

omit [DecidableEq β] in
theorem Nonces.later {held : β → Option Nat} (h : Nonces b plan w held) (hw : Later w w') :
    Nonces b plan w' held where
  counted hb i v hv := (h.counted hb i v hv).trans (hw.highWater _)
  distinct := h.distinct
  flat := h.flat

theorem Nonces.settled {held : β → Option Nat} (h : Nonces b plan w held) (hw : Later w w') {i : β}
    {v : Nat} (hwon : v ≠ 0 → Won b (bootKey (plan i).advertise) w w' v) :
    Nonces b plan w' (Function.update held i (some v)) := by
  have h' := h.later hw
  unfold Won at hwon
  refine ⟨fun hb j u hu => ?_, fun hb j k u hhash hu0 hj hk => ?_, fun hb j u hu => ?_⟩
  · rw [if_pos hb] at hwon
    by_cases hj : j = i
    · subst hj
      rw [Function.update_self] at hu
      cases hu
      omega
    · rw [Function.update_of_ne hj] at hu
      exact h'.counted hb j u hu
  · rw [if_pos hb] at hwon
    -- a nonce just drawn lies above all that were held before
    have hold : ∀ j, j ≠ i → addressHash (plan j).advertise = addressHash (plan i).advertise →
        v ≠ 0 → held j ≠ some v := by
      intro j hj hhash hv0 hv
      have := h.counted hb j v hv
      rw [bootKey, hhash] at this
      exact absurd (hwon hv0).1 (by unfold bootKey; omega)
    by_cases hji : j = i <;> by_cases hki : k = i
    · rw [hji, hki]
    · subst hji
      rw [Function.update_self] at hj
      rw [Function.update_of_ne hki] at hk
      cases hj
      exact absurd hk (hold k hki hhash.symm hu0)
    · subst hki
      rw [Function.update_of_ne hji] at hj
      rw [Function.update_self] at hk
      cases hk
      exact absurd hj (hold j hji hhash hu0)
    · rw [Function.update_of_ne hji] at hj
      rw [Function.update_of_ne hki] at hk
      exact h.distinct hb j k u hhash hu0 hj hk
  · rw [if_neg hb] at hwon
    by_cases hj : j = i
    · subst hj
      rw [Function.update_self] at hu
      cases hu
      omega
    · rw [Function.update_of_ne hj] at hu
      exact h.flat hb j u hu

theorem Moved.nonces {held : β → Option Nat} {nonce : Option Nat}
    (h : Moved b (plan i) w i (held i) w' nonce) (hn : Nonces b plan w held) :
    Nonces b plan w' (Function.update held i nonce) := by
  have hlater := h.frame.1
  cases hheld : held i with
  | none =>
    rw [hheld] at h
    cases h with
    | quiet =>
      rw [← hheld, Function.update_eq_self]
      exact hn.later hlater
    | settled hquiet hwon => exact hn.settled hlater hwon
  | some v =>
    have hsame : nonce = held i := by
      rcases h.kept with hnone | hsame
      · rw [hnone] at hheld
        cases hheld
      · exact hsame
    rw [hsame, Function.update_eq_self]
    exact hn.later hlater

omit [DecidableEq β] in
theorem Ids.quiet {held : β → Option Nat} (h : Ids plan w held)
    (hnext : w'.next .ship = w.next .ship) (hissued : w'.issued = w.issued) :
    Ids plan w' held where
  known := hissued ▸ h.known
  value := by
    rw [hissued, hnext]
    exact h.value
  ships := hissued ▸ h.ships
  sessions := hissued ▸ h.sessions

/-- A boot without a nonce has been seen without a tag only, so it may still get one. -/
theorem Ids.settled {held : β → Option Nat} (h : Ids plan w held) {nonce : Option Nat}
    (hheld : held i = none ∨ nonce = held i) : Ids plan w (Function.update held i nonce) where
  known k x hx := by
    obtain ⟨hadvertise, hnonce⟩ := h.known k x hx
    refine ⟨hadvertise, ?_⟩
    by_cases hi : x.node.boot = i
    · rw [hi] at hnonce ⊢
      rw [Function.update_self]
      exact read_later hnonce hheld
    · rwa [Function.update_of_ne hi]
  value := h.value
  ships := h.ships
  sessions := h.sessions

theorem next_advance (w : World β) (k k' : Counter) (i j : β) :
    (w.advance k i).next k' j = if k' = k ∧ j = i then w.next k j + 1 else w.next k' j := by
  unfold World.advance
  dsimp only
  by_cases hk : k' = k
  · subst hk
    by_cases hj : j = i
    · subst hj
      simp
    · simp [hj]
  · simp [hk]

section

omit [DecidableEq β]

theorem issued_issue (w : World β) (k k' : Counter) (n : Node β) (value : Nat) :
    (w.issue k n value).issued k' =
      if k' = k then ⟨n, value⟩ :: w.issued k else w.issued k' := by
  unfold World.issue
  dsimp only
  by_cases hk : k' = k
  · subst hk
    simp
  · simp [hk]

theorem Ids.known_issue {held : β → Option Nat} (h : Ids plan w held) (k : Counter) {n : Node β}
    (hn : Known plan held n) (value : Nat) (k' : Counter) :
    ∀ x ∈ (w.issue k n value).issued k', Known plan held x.node := by
  intro x hx
  rw [issued_issue] at hx
  split_ifs at hx with hk
  · rcases List.mem_cons.mp hx with rfl | hx
    · exact hn
    · exact h.known k x hx
  · exact h.known k' x hx

/-- A number that no boot alike has used makes a new id. -/
theorem Ids.new {held : β → Option Nat} (h : Ids plan w held) (hnonces : Nonces b plan w held)
    {k : Counter} {n : Node β} (hn : Known plan held n) {value : Nat}
    (hunused : Unused b (w.issued k) n value) {x : Issue β} (hx : x ∈ w.issued k)
    (hboot : x.node.boot ≠ n.boot) : x.id ≠ n.id value := by
  intro heq
  obtain ⟨htag, hvalue⟩ := id_eq_iff.mp heq
  exact hunused x hx hboot ((hnonces.tag_eq_iff (h.known k x hx) hn hboot).mp htag) hvalue

end

theorem Ids.ship {held : β → Option Nat} (h : Ids plan w held) (hnonces : Nonces b plan w held)
    {n : Node β} (hn : Known plan held n)
    (hunused : Unused b (w.issued .ship) n (w.next .ship n.boot)) : Ids plan (w.ship n) held where
  known := h.known_issue .ship hn _
  value x hx := by
    change x ∈ (w.issue .ship n _).issued .ship at hx
    rw [issued_issue, if_pos rfl] at hx
    change x.value < ((w.issue .ship n _).advance .ship n.boot).next .ship x.node.boot
    rw [next_advance]
    rcases List.mem_cons.mp hx with rfl | hx
    · rw [if_pos ⟨rfl, rfl⟩]
      exact Nat.lt_succ_self _
    · have hlt := h.value x hx
      split_ifs
      · exact Nat.lt_succ_of_lt hlt
      · exact hlt
  ships := by
    change ((w.issue .ship n _).issued .ship).Pairwise _
    rw [issued_issue, if_pos rfl]
    refine List.pairwise_cons.mpr ⟨fun x hx heq => ?_, h.ships⟩
    by_cases hboot : x.node.boot = n.boot
    · have hlt := h.value x hx
      have hvalue := (id_eq_iff.mp heq).2
      rw [hboot] at hlt
      exact absurd hvalue hlt.ne'
    · exact h.new hnonces hn hunused hx hboot heq.symm
  sessions := by
    have hconn : (w.ship n).issued .conn = w.issued .conn :=
      (issued_issue w .ship .conn n (w.next .ship n.boot)).trans (if_neg fun heq => nomatch heq)
    rw [hconn]
    exact h.sessions

omit [DecidableEq β] in
theorem Ids.session {held : β → Option Nat} (h : Ids plan w held) (hnonces : Nonces b plan w held)
    {n : Node β} (hn : Known plan held n) {conn : Nat}
    (hunused : Unused b (w.issued .conn) n conn) : Ids plan (w.issue .conn n conn) held where
  known := h.known_issue .conn hn _
  value := by
    rw [issued_issue, if_neg (by decide)]
    exact h.value
  ships := by
    rw [issued_issue, if_neg (by decide)]
    exact h.ships
  sessions x hx y hy hne := by
    rw [issued_issue, if_pos rfl] at hx hy
    rcases List.mem_cons.mp hx with rfl | hx <;> rcases List.mem_cons.mp hy with rfl | hy
    · exact absurd rfl hne
    · exact (h.new hnonces hn hunused hy hne.symm).symm
    · exact h.new hnonces hn hunused hx hne
    · exact h.sessions x hx y hy hne

theorem Serving.ids {held : β → Option Nat} (h : Serving (plan i) i (held i) prog)
    (hids : Ids plan w held) (hnonces : Nonces b plan w held) (hfresh : Fresh b w prog)
    (e : Fault) : Ids plan (prog.move machine e w).2 held := by
  have hconn : (w.advance .conn i).next .ship = w.next .ship := by
    funext j
    rw [next_advance, if_neg fun hboth => nomatch hboth.1]
  cases h with
  | next work =>
    cases work with
    | nil => exact hids
    | cons next work =>
      cases next with
      | ship => exact hids
      | connect => exact hids.quiet hconn rfl
      | session conn => exact hids
      | poll => exact hids.quiet hconn rfl
  | ship nonce work hnonce => exact hids.ship hnonces ⟨rfl, hnonce⟩ hfresh
  | session nonce conn work hnonce =>
    change Ids plan (w.session _ conn) held
    unfold World.session
    split_ifs with hopen
    · exact hids.session hnonces ⟨rfl, hnonce⟩ (hfresh hopen)
    · exact hids

/-- The processes stand where their boots hold what they hold, and the ids are those of the boots
known. -/
structure Inv (b : Backend) (plan : β → Plan) (held : β → Option Nat) (c : Fleet β) : Prop where
  stage : ∀ i, Stage b (plan i) c.shared i (held i) (c.procs (i, none)).prog
  serving : ∀ i task, Serving (plan i) i (held i) (c.procs (i, some task)).prog
  nonces : Nonces b plan c.shared held
  ids : Ids plan c.shared held

omit [DecidableEq β] in
theorem inv_start (b : Backend) (plan : β → Plan) :
    Inv b plan (fun _ => none) (startFleet b plan) where
  stage _ := .version 63 rfl
  serving i task := .next ((plan i).work task)
  nonces := ⟨fun _ _ _ => nofun, fun _ _ _ _ _ _ => nofun, fun _ _ _ => nofun⟩
  ids := ⟨fun _ _ => nofun, fun _ => nofun, .nil, fun _ => nofun⟩

theorem inv_step_start {held : β → Option Nat} {c : Fleet β} (h : Inv b plan held c) (i : β)
    (e : Fault) : ∃ held', Inv b plan held' (c.step machine (i, none) e) := by
  obtain ⟨nonce, hstage, hmoved⟩ := (h.stage i).move e
  rw [← Config.step_shared] at hstage hmoved
  rw [← Config.step_prog] at hstage
  obtain ⟨hlater, htags, hnext, hissued⟩ := hmoved.frame
  refine ⟨Function.update held i nonce, fun j => ?_, fun j task => ?_, hmoved.nonces h.nonces,
    (h.ids.settled hmoved.kept).quiet (congrFun hnext _) hissued⟩
  · by_cases hj : j = i
    · subst hj
      rwa [Function.update_self]
    · rw [Function.update_of_ne hj,
        Config.step_procs_ne machine c fun heq => hj (Prod.mk.inj heq).1]
      exact (h.stage j).later hlater (htags j hj)
  · rw [Config.step_procs_ne machine c fun heq => Option.some_ne_none _ (Prod.mk.inj heq).2]
    by_cases hj : j = i
    · subst hj
      rw [Function.update_self]
      exact (h.serving j task).later hmoved.kept
    · rw [Function.update_of_ne hj]
      exact h.serving j task

theorem inv_step_task {held : β → Option Nat} {c : Fleet β} (h : Inv b plan held c) {i : β}
    {task : Nat} {e : Fault} (hgood : FreshNext b c (i, some task) e) :
    Inv b plan held (c.step machine (i, some task) e) := by
  have hserving := h.serving i task
  obtain ⟨hblobs, hversions, htags⟩ := hserving.frame (w := c.shared) e
  have hids := hserving.ids h.ids h.nonces hgood e
  have hmove := hserving.move (h.stage i).tag e
  rw [← Config.step_shared] at hblobs hversions htags hids
  rw [← Config.step_prog] at hmove
  have hlater : Later c.shared (c.step machine (i, some task) e).shared := by
    constructor
    · intro key
      rw [World.highWater, World.highWater, hversions]
    · intro key hkey
      rwa [hblobs]
  refine ⟨fun j => ?_, fun j other => ?_, h.nonces.later hlater, hids⟩
  · rw [Config.step_procs_ne machine c fun heq => Option.some_ne_none _ (Prod.mk.inj heq).2.symm]
    exact (h.stage j).later hlater (congrFun htags j)
  · by_cases hj : (j, some other) = (i, some task)
    · cases hj
      exact hmove
    · rw [Config.step_procs_ne machine c hj]
      exact h.serving j other

theorem inv_step {held : β → Option Nat} {c : Fleet β} (h : Inv b plan held c)
    {m : β × Option Nat} {e : Fault} (hgood : FreshNext b c m e) :
    ∃ held', Inv b plan held' (c.step machine m e) := by
  obtain ⟨i, _ | task⟩ := m
  · exact inv_step_start h i e
  · exact ⟨held, inv_step_task h hgood⟩

omit [DecidableEq β] in
/-- `start` issues no id. -/
theorem Stage.fresh (h : Stage b p w i held prog) : Fresh b w prog := by
  cases h with
  | version attempts hnew => cases b <;> trivial
  | attempt attempts hq hnew =>
    cases hq with
    | cas expected => cases b <;> trivial
    | put => trivial
    | reread => cases b <;> trivial
  | naming nonce hnew => trivial
  | named nonce hset => trivial

/-- A task that does not take a fresh number issues it all the same. -/
theorem Serving.of_not_fresh (h : Serving p i held prog) (hbad : ¬ Fresh b w prog) :
    ∃ (n : Node β) (k : Counter), ∃ x ∈ w.issued k, n.boot = i ∧ n.advertise = p.advertise ∧
      (n.nonce = none ∨ n.nonce = held) ∧ x.node.boot ≠ i ∧ Alike b x.node n ∧
      ∀ e, (prog.move machine e w).2.issued = (w.issue k n x.value).issued := by
  cases h with
  | next work =>
    cases work with
    | nil => exact absurd trivial hbad
    | cons next work => cases next <;> exact absurd trivial hbad
  | ship nonce work hnonce =>
    unfold Fresh Unused at hbad
    push Not at hbad
    obtain ⟨x, hx, hboot, halike, hvalue⟩ := hbad
    exact ⟨_, .ship, x, hx, rfl, rfl, hnonce, hboot, halike, fun e => by rw [hvalue]; rfl⟩
  | session nonce conn work hnonce =>
    unfold Fresh Unused at hbad
    push Not at hbad
    obtain ⟨hopen, x, hx, hboot, halike, rfl⟩ := hbad
    refine ⟨_, .conn, x, hx, rfl, rfl, hnonce, hboot, halike, fun e => ?_⟩
    change (w.session _ x.value).issued = _
    rw [World.session, if_pos hopen]

/-- A boat shipped, or a session id made out, against the condition repeats an id. -/
theorem distinct_broken {held : β → Option Nat} {c : Fleet β} (h : Inv b plan held c)
    {m : β × Option Nat} {e : Fault} (hbad : ¬ FreshNext b c m e) :
    ¬ IdsDistinct (c.step machine m e) := by
  obtain ⟨i, _ | task⟩ := m
  · exact absurd (h.stage i).fresh hbad
  obtain ⟨n, k, x, hx, rfl, hadvertise, hnonce, hboot, halike, hissued⟩ :=
    (h.serving i task).of_not_fresh hbad
  have hknown : Known plan held n := ⟨hadvertise, hnonce⟩
  have hsame : x.id = n.id x.value :=
    id_eq_iff.mpr ⟨(h.nonces.tag_eq_iff (h.ids.known k x hx) hknown hboot).mpr halike, rfl⟩
  rintro ⟨hships, hsessions⟩
  rw [Config.step_shared, hissued, issued_issue] at hships hsessions
  cases k with
  | ship =>
    rw [if_pos rfl] at hships
    exact (List.pairwise_cons.mp hships).1 x hx hsame.symm
  | conn =>
    rw [if_pos rfl] at hsessions
    exact hsessions x (List.mem_cons_of_mem _ hx) _ List.mem_cons_self hboot hsame

omit [DecidableEq β] in
theorem inv_distinct {held : β → Option Nat} {c : Fleet β} (h : Inv b plan held c) :
    IdsDistinct c := ⟨h.ids.ships, h.ids.sessions⟩

/-- The ids of boots are distinct on exactly the schedules where each takes a number that no boot
alike has used: the sequence number of a boat, and the number of a connection. -/
theorem ids_distinct_iff (b : Backend) (plan : β → Plan) (moves : List ((β × Option Nat) × Fault)) :
    (startFleet b plan).Throughout machine IdsDistinct moves ↔
      (startFleet b plan).Guarded machine (FreshNext b) moves := by
  refine Config.throughout_iff_guarded (I := fun c => ∃ held, Inv b plan held c) ?_ ?_ ?_ moves
    ⟨_, inv_start b plan⟩
  · rintro c m e ⟨held, h⟩ hgood
    exact inv_step h hgood
  · rintro c ⟨held, h⟩
    exact inv_distinct h
  · rintro c m e ⟨held, h⟩ hbad
    exact distinct_broken h hbad

/-- The node at `n1:8787`, which ships one boat. -/
def oneBoat : Plan := ⟨[110, 49, 58, 56, 55, 56, 55], fun _ => [.ship]⟩

/-- It boots over the file system, ships, crashes, boots again and ships again. -/
def reboot : List ((Fin 2 × Option Nat) × Fault) :=
  List.replicate 5 ((0, none), .none) ++ List.replicate 2 ((0, some 0), .none) ++
    List.replicate 5 ((1, none), .none) ++ List.replicate 2 ((1, some 0), .none)

theorem rebooted_ids_repeat :
    ¬ (startFleet .fs fun _ => oneBoat).Throughout machine IdsDistinct reboot := by
  intro h
  have hids : (((startFleet .fs fun _ => oneBoat).run machine reboot).shared.issued .ship).map
      (·.id) = ["27c03b26b1-0", "27c03b26b1-0"] := by decide
  have hdistinct := List.pairwise_map.mpr h.last.1
  rw [hids] at hdistinct
  exact absurd hdistinct (by decide)

/-- Two nodes whose claim loops still run ship over any store. -/
example : (((startFleet .mem fun i : Fin 2 => ⟨[i.val.toUInt8], fun _ => [.ship]⟩).run machine
    [((0, some 0), .none), ((0, some 0), .none), ((1, some 0), .none), ((1, some 0), .none)]
    ).shared.issued .ship).map (·.id) = ["boot-0", "boot-0"] := by decide

end Fafo.Boot
