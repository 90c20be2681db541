import Fafo.Store
import Fafo.Library.Solo

/-! Rules for single store operations, when a task relies on what it also guarantees. -/
namespace Fafo

open Interleave

variable {K V N α : Type} [DecidableEq K]
  {admits : Env → Option (Event (nodeSig K V N)) → NodeOp K V N → World K V N → Prop}
  {R : World K V N → World K V N → Prop} [IsTrans (World K V N) R] [Std.Refl R]

/-- An operation that is harmless whenever it takes effect; an answer means it did. -/
theorem StoreOp.sat {o : StoreOp K V} {k : Except Error o.Value → Task K V N α}
    {Q : α → World K V N → Prop} {last : Option (Event (nodeSig K V N))} {w : World K V N}
    (heff : ∀ t e, R w t → admits e last (.store o) t → e.fault ≠ .failed → R t (t.effect o))
    (hk : ∀ r u, R w u →
      (∀ a, r = .ok a → ∃ t, R w t ∧ a = o.value t.blobs ∧ u = t.effect o) →
      Sat node admits R R Q (k r) (some ⟨.store o, r⟩) u) :
    Sat node admits R R Q (.call (NodeOp.store o) k) last w := by
  intro t ht e hadmits
  change R t (exec e (.store o) t).2 ∧ Sat node _ _ _ Q
    (k (exec e (.store o) t).1) (some ⟨.store o, (exec e (.store o) t).1⟩) (exec e (.store o) t).2
  cases hf : e.fault with
  | none =>
    have heff' := heff t e ht hadmits (by simp [hf])
    simp only [exec, hf]
    exact ⟨heff', hk _ _ (Trans.trans ht heff') (fun a ha => ⟨t, ht, by cases ha; rfl, rfl⟩)⟩
  | failed =>
    simp only [exec, hf]
    have hnext := hk (.error .unavailable) t ht fun a ha => by cases ha
    exact ⟨Std.Refl.refl t, hnext⟩
  | lost =>
    have heff' := heff t e ht hadmits (by simp [hf])
    simp only [exec, hf]
    have hnext := hk (.error .unavailable) _ (Trans.trans ht heff') fun a ha => by cases ha
    exact ⟨heff', hnext⟩

theorem StoreOp.does {o : StoreOp K V} {k : Except Error o.Value → Task K V N α}
    {Q : α → World K V N → Prop} {w : World K V N}
    (heff : ∀ t e last, R w t → admits e last (.store o) t → e.fault ≠ .failed →
      R t (t.effect o))
    (hk : ∀ r u, R w u →
      (∀ a, r = .ok a → ∃ t, R w t ∧ a = o.value t.blobs ∧ u = t.effect o) →
      Does node admits R R Q (k r) u) : Does node admits R R Q (.call (NodeOp.store o) k) w :=
  fun last => StoreOp.sat (fun t e => heff t e last) fun r u hu hr => hk r u hu hr _

namespace Store

/-- An operation that only reads. -/
theorem does_read {o : StoreOp K V} (ho : ∀ t : World K V N, t.effect o = t)
    {f : o.Value → Try K V N α} {Q : Except Error α → World K V N → Prop} {w : World K V N}
    (hok : ∀ t, R w t → Does node admits R R Q (f (o.value t.blobs)) t)
    (herr : ∀ e t, Q (.error e) t) :
    Does node admits R R Q ((.call (NodeOp.store o) .ret : Try K V N o.Value).attempt f) w := by
  refine StoreOp.does (fun t _ _ _ _ _ => ?_) fun r u hu hr => ?_
  · rw [ho]
    exact Std.Refl.refl t
  · cases r with
    | error e => exact Does.ret fun t _ => herr e t
    | ok a =>
      obtain ⟨t, ht, rfl, rfl⟩ := hr a rfl
      rw [ho]
      exact hok t ht

theorem does_get {key : K} {f : Option V → Try K V N α} {Q : Except Error α → World K V N → Prop}
    {w : World K V N} (hok : ∀ t, R w t → Does node admits R R Q (f (t.get key)) t)
    (herr : ∀ e t, Q (.error e) t) : Does node admits R R Q ((Store.get key).attempt f) w :=
  does_read (fun _ => rfl) hok herr

theorem does_list {pre : K → Bool} {f : List K → Try K V N α}
    {Q : Except Error α → World K V N → Prop} {w : World K V N}
    (hok : ∀ t, R w t → Does node admits R R Q (f (t.blobs.keys.filter pre)) t)
    (herr : ∀ e t, Q (.error e) t) : Does node admits R R Q ((Store.list pre).attempt f) w :=
  does_read (fun _ => rfl) hok herr

theorem does_delete {key : K} {f : Unit → Try K V N α} {Q : Except Error α → World K V N → Prop}
    {w : World K V N} (heff : ∀ t, R w t → R t (t.effect (.delete key)))
    (hok : ∀ t, R w t → Does node admits R R Q (f ()) t)
    (herr : ∀ e t, Q (.error e) t) : Does node admits R R Q ((Store.delete key).attempt f) w := by
  refine StoreOp.does (fun t _ _ ht _ _ => heff t ht) fun r u hu _ => ?_
  cases r with
  | error e => exact Does.ret fun t _ => herr e t
  | ok a => exact hok u hu

end Store

section Apart

variable {R G : World K V N → World K V N → Prop} [Std.Refl G]

/-- An operation that only reads, with what admits it, by a task that goes on from what it read. -/
theorem Store.sat_read {o : StoreOp K V} (ho : ∀ t : World K V N, t.effect o = t)
    {f : o.Value → Try K V N α} {Q : Except Error α → World K V N → Prop}
    {last : Option (Event (nodeSig K V N))} {w : World K V N}
    (hok : ∀ t e, R w t → admits e last (.store o) t →
      Sat node admits R G Q (f (o.value t.blobs)) (some ⟨.store o, .ok (o.value t.blobs)⟩) t)
    (herr : ∀ e t, Q (.error e) t) :
    Sat node admits R G Q ((.call (NodeOp.store o) .ret : Try K V N o.Value).attempt f) last w := by
  intro t ht e hadmits
  have hsame : (exec e (.store o) t).2 = t := by
    obtain h | h := exec_state e o t
    · exact h
    · rw [h, ho]
  change G t (exec e (.store o) t).2 ∧ Sat node admits R G Q
    ((.ret (exec e (.store o) t).1 : Try K V N o.Value).attempt f)
    (some ⟨.store o, (exec e (.store o) t).1⟩) (exec e (.store o) t).2
  rw [hsame]
  refine ⟨Std.Refl.refl t, ?_⟩
  by_cases hfault : e.fault = .none
  · rw [exec_works hfault]
    exact hok t e ht hadmits
  · rw [exec_errs hfault]
    exact fun u _ => herr _ u

/-- An operation of a task that nobody disturbs. -/
theorem StoreOp.does_alone {o : StoreOp K V} {k : Except Error o.Value → Task K V N α}
    {Q : α → World K V N → Prop} {w : World K V N} (heff : G w (w.effect o))
    (hk : ∀ r, Does node admits Eq G Q (k r) (w.effect o))
    (hfailed : Does node admits Eq G Q (k (.error .unavailable)) w) :
    Does node admits Eq G Q (.call (NodeOp.store o) k) w := by
  refine Does.call ?_
  rintro t rfl e last _
  change G w (exec e (.store o) w).2 ∧ Does node admits Eq G Q (k (exec e (.store o) w).1)
    (exec e (.store o) w).2
  by_cases hfault : e.fault = .failed
  · rw [exec_errs (by rw [hfault]; decide)]
    have hsame : (exec e (.store o) w).2 = w := by simp only [exec, hfault]
    rw [hsame]
    exact ⟨Std.Refl.refl w, hfailed⟩
  · rw [exec_lands hfault]
    exact ⟨heff, hk _⟩

end Apart

section Solo

variable {env : Nat → Env} {n : Nat}

theorem solo_store (h : (env n).fault = .none) (o : StoreOp K V) (w : World K V N) :
    Prog.solo node env (.call (NodeOp.store o) .ret : Try K V N o.Value) n w =
      ⟨.ok (o.value w.blobs), n + 1, w.effect o⟩ := by
  change (⟨(exec (env n) (.store o) w).1, n + 1, (exec (env n) (.store o) w).2⟩ :
    Ended (World K V N) (Except Error o.Value)) = _
  rw [exec_works h]

theorem solo_get (h : (env n).fault = .none) (key : K) (w : World K V N) :
    Prog.solo node env (Store.get key) n w = ⟨.ok (w.get key), n + 1, w⟩ :=
  solo_store h (.get key) w

theorem solo_list (h : (env n).fault = .none) (pre : K → Bool) (w : World K V N) :
    Prog.solo node env (Store.list pre) n w = ⟨.ok (w.blobs.keys.filter pre), n + 1, w⟩ :=
  solo_store h (.list pre) w

theorem solo_put (h : (env n).fault = .none) (key : K) (bytes : V) (w : World K V N) :
    Prog.solo node env (Store.put key bytes) n w = ⟨.ok (), n + 1, w.effect (.put key bytes)⟩ :=
  solo_store h (.put key bytes) w

end Solo

/-- Alone on a store that does not fail, the task ends well. -/
abbrev Succeeds (p : Try K V N α) (w : World K V N) : Prop :=
  Does node (fun e _ _ _ => e.fault = .none) Eq (fun _ _ => True) (fun r _ => ∃ a, r = .ok a) p w

theorem Succeeds.ret (a : α) (w : World K V N) : Succeeds (.ret (.ok a)) w :=
  Does.ret fun _ _ => ⟨a, rfl⟩

theorem Succeeds.store {o : StoreOp K V} {k : Except Error o.Value → Try K V N α}
    (hk : ∀ a w, Succeeds (k (.ok a)) w) (w : World K V N) :
    Succeeds (.call (NodeOp.store o) k) w := by
  refine Does.call fun t _ e last hfault => ⟨trivial, ?_⟩
  change Succeeds (k (exec e (.store o) t).1) (exec e (.store o) t).2
  rw [exec_works hfault]
  exact hk _ _

theorem Succeeds.op (o : StoreOp K V) (w : World K V N) :
    Succeeds (.call (NodeOp.store o) .ret) w := Succeeds.store Succeeds.ret w

theorem Succeeds.note {n : N} {k : Unit → Try K V N α} (hk : ∀ w, Succeeds (k ()) w)
    (w : World K V N) : Succeeds ((note n).bind k) w :=
  Does.call fun _ _ _ _ _ => ⟨trivial, hk _⟩

theorem Succeeds.attempt {β : Type} {p : Try K V N β} {f : β → Try K V N α} {w : World K V N}
    (hp : Succeeds p w) (hf : ∀ b t, Succeeds (f b) t) : Succeeds (p.attempt f) w := by
  refine Does.attempt (hp.mono ?_)
  rintro r t ⟨b, rfl⟩
  refine ⟨fun a heq => ?_, nofun⟩
  cases heq
  exact hf b t

end Fafo
