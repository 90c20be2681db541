import Fafo.Library.Interleave

/-! Atomic operations made of smaller ones, by the method of possibilities: an operation that takes
several steps looks as if it took effect at one of them. -/
namespace Interleave

variable {S T : Signature} {σ τ ε η γ ι α β : Type}

/-- The program with each operation carried out by a program of its own. -/
def Prog.expand (impl : ∀ o, Prog T (S.Answer o)) : Prog S α → Prog T α
  | .ret a => .ret a
  | .call o k => (impl o).bind fun r => (k r).expand impl

/-- What starts with an operation does so whatever follows. -/
theorem Prog.bind_ne_ret {m : Prog S α} {f : α → Prog S β} (h : ∀ a, m ≠ .ret a) (b : β) :
    m.bind f ≠ .ret b := by
  cases m with
  | ret a => exact absurd rfl (h a)
  | call o k => exact fun heq => by cases heq

/-- How far an operation has come: it has yet to take effect, it may have done so already with this
answer, or it has. -/
inductive Outlook (A : Type) where
  | pending
  | offered (r : A)
  | settled (r : A)

def Outlook.Open {A : Type} : Outlook A → Prop
  | settled _ => False
  | _ => True

/-- What can become of an atomic operation while one step is taken on its behalf. -/
inductive Settles (A : Machine S σ ε) (o : S.Op) :
    Outlook (S.Answer o) → σ → Outlook (S.Answer o) → σ → Prop
  | wait (d : Outlook (S.Answer o)) (s : σ) : Settles A o d s d s
  | land {d : Outlook (S.Answer o)} (hd : d.Open) (e : ε) (s : σ) :
      Settles A o d s (.settled (A.exec e o s).1) (A.exec e o s).2
  | offer {r : S.Answer o} {s : σ} (e : ε) (h : A.exec e o s = (r, s)) :
      Settles A o .pending s (.offered r) s
  | accept (r : S.Answer o) (s : σ) : Settles A o (.offered r) s (.settled r) s

/-- The atomic machine can give this answer anywhere, and do nothing. -/
def Machine.Refuses (A : Machine S σ ε) (o : S.Op) (a : S.Answer o) : Prop :=
  ∀ s, ∃ e, A.exec e o s = (a, s)

/-- What is left of a process of the atomic machine. -/
def Outlook.prog {o : S.Op} (k : S.Answer o → Prog S α) : Outlook (S.Answer o) → Prog S α
  | settled r => k r
  | _ => .call o k

/-- What it may have come to already. -/
def Outlook.offer {o : S.Op} (k : S.Answer o → Prog S α) : Outlook (S.Answer o) → Option (Proc S α)
  | offered r => some ⟨k r, some ⟨o, r⟩⟩
  | _ => none

/-- The operation may return this answer. -/
def Outlook.Closes (A : Machine S σ ε) (o : S.Op) (a : S.Answer o) : Outlook (S.Answer o) → Prop
  | settled r => r = a
  | _ => A.Refuses o a

/-- An operation that returns has settled with its answer, at that step if not before. -/
theorem Settles.close {A : Machine S σ ε} {o : S.Op} {d d' : Outlook (S.Answer o)} {s s' : σ}
    {a : S.Answer o} (h : Settles A o d s d' s') (ha : d'.Closes A o a) :
    Settles A o d s (.settled a) s' := by
  have hrefuse (hd : d.Open) (hrefuses : A.Refuses o a) : Settles A o d s (.settled a) s := by
    obtain ⟨e, he⟩ := hrefuses s
    have hland := Settles.land (A := A) hd e s
    rwa [he] at hland
  cases h with
  | wait =>
    cases d with
    | pending => exact hrefuse trivial ha
    | offered r => exact hrefuse trivial ha
    | settled r =>
      obtain rfl : r = a := ha
      exact .wait _ _
  | land hd e =>
    obtain rfl : (A.exec e o s).1 = a := ha
    exact .land hd e s
  | offer e he => exact hrefuse trivial ha
  | accept r =>
    obtain rfl : r = a := ha
    exact .accept r s

/-- A machine and the atomic one it stands for: how their states correspond, and what a process may
hold that no other process touches. -/
structure Layer (C : Machine T τ η) (A : Machine S σ ε) (γ : Type) where
  Rel : τ → σ → Prop
  Own : γ → τ → Prop
  apart : γ → γ → Prop
  idle : γ
  admits : η → T.Op → τ → Prop
  apart_symm : ∀ g h, apart g h → apart h g
  apart_idle : ∀ g, apart g idle
  own_idle : ∀ t, Own idle t

namespace Layer

variable {C : Machine T τ η} {A : Machine S σ ε} (L : Layer C A γ)

/-- What the others hold is theirs as before. -/
def Frames (g g' : γ) (t t' : τ) : Prop :=
  ∀ h, L.apart h g → L.Own h t → L.Own h t' ∧ L.apart h g'

/-- Every step of the program keeps the correspondence and touches nothing that others hold, and the
operation it stands for settles at no more than one of them. -/
def Lin (o : S.Op) (Q : β → Outlook (S.Answer o) → γ → Prop) :
    Prog T β → Outlook (S.Answer o) → γ → Prop
  | .ret b, d, g => Q b d g
  | .call c k, d, g => ∀ t s e, L.Rel t s → L.Own g t → L.admits e c t →
      ∃ d' s' g', Settles A o d s d' s' ∧ L.Rel (C.exec e c t).2 s' ∧
        L.Own g' (C.exec e c t).2 ∧ L.Frames g g' t (C.exec e c t).2 ∧
        Lin o Q (k (C.exec e c t).1) d' g'

/-- A program that carries out an operation: it takes a step at least, and its answer is the one the
operation settled with. -/
structure Implements (o : S.Op) (m : Prog T (S.Answer o)) : Prop where
  calls : ∀ a, m ≠ .ret a
  lin : L.Lin o (fun a d _ => d.Closes A o a) m .pending L.idle

variable {L}

theorem Lin.mono {o : S.Op} {Q Q' : β → Outlook (S.Answer o) → γ → Prop}
    (hQ : ∀ b d g, Q b d g → Q' b d g) {m : Prog T β} {d : Outlook (S.Answer o)} {g : γ}
    (h : L.Lin o Q m d g) : L.Lin o Q' m d g := by
  induction m generalizing d g with
  | ret b => exact hQ b d g h
  | call c k ih =>
    intro t s e hrel hown hadm
    obtain ⟨d', s', g', hset, hrel', hown', hfr, hk⟩ := h t s e hrel hown hadm
    exact ⟨d', s', g', hset, hrel', hown', hfr, ih _ hk⟩

theorem Lin.bind {o : S.Op} {Q : α → Outlook (S.Answer o) → γ → Prop}
    {m : Prog T β} {f : β → Prog T α} {d : Outlook (S.Answer o)} {g : γ}
    (h : L.Lin o (fun b d g => L.Lin o Q (f b) d g) m d g) : L.Lin o Q (m.bind f) d g := by
  induction m generalizing d g with
  | ret b => exact h
  | call c k ih =>
    intro t s e hrel hown hadm
    obtain ⟨d', s', g', hset, hrel', hown', hfr, hk⟩ := h t s e hrel hown hadm
    exact ⟨d', s', g', hset, hrel', hown', hfr, ih _ hk⟩

theorem Lin.attempt {E : Type} {o : S.Op} {Q : Except E α → Outlook (S.Answer o) → γ → Prop}
    {m : Prog T (Except E β)} {f : β → Prog T (Except E α)} {d : Outlook (S.Answer o)} {g : γ}
    (h : L.Lin o (fun r d g => (∀ b, r = .ok b → L.Lin o Q (f b) d g) ∧
      ∀ e, r = .error e → Q (.error e) d g) m d g) : L.Lin o Q (m.attempt f) d g := by
  refine Lin.bind (h.mono fun r d g hr => ?_)
  cases r with
  | ok b => exact hr.1 b rfl
  | error e => exact hr.2 e rfl

/-- A step at which the operation does not settle and that changes nothing. -/
theorem Lin.look {o : S.Op} {Q : β → Outlook (S.Answer o) → γ → Prop} {c : T.Op}
    {k : T.Answer c → Prog T β} {d : Outlook (S.Answer o)} {g : γ}
    (hsame : ∀ e t, (C.exec e c t).2 = t)
    (h : ∀ t s e, L.Rel t s → L.Own g t → L.admits e c t →
      L.Lin o Q (k (C.exec e c t).1) d g) : L.Lin o Q (.call c k) d g := by
  intro t s e hrel hown hadm
  rw [hsame]
  exact ⟨d, s, g, .wait d s, hrel, hown, fun h' ha ho => ⟨ho, ha⟩, h t s e hrel hown hadm⟩

end Layer

namespace Config

/-- Some processes are further on than the configuration says. -/
def advance (x : Config S σ ι α) (f : ι → Option (Proc S α)) : Config S σ ι α :=
  ⟨x.shared, fun i => (f i).getD (x.procs i)⟩

theorem advance_none (x : Config S σ ι α) : x.advance (fun _ => none) = x := rfl

variable [DecidableEq ι]

theorem step_advance (A : Machine S σ ε) (x : Config S σ ι α) {f : ι → Option (Proc S α)} {i : ι}
    (hf : f i = none) (e : ε) : (x.advance f).step A i e = (x.step A i e).advance f := by
  have hi : (x.advance f).procs i = x.procs i := by simp [advance, hf]
  cases hp : (x.procs i).prog with
  | ret a => simp only [step, hi, hp]
  | call o k =>
    simp only [step, hi, hp]
    refine congrArg (Config.mk _) ?_
    funext j
    by_cases hj : j = i
    · subst hj
      simp [hf, advance]
    · simp [Function.update_of_ne hj, advance]

/-- To go on from an offer is to be further on by one process. -/
theorem advance_update (x : Config S σ ι α) (f : ι → Option (Proc S α)) (i : ι) (p : Proc S α) :
    x.advance (Function.update f i (some p)) =
      (⟨x.shared, Function.update x.procs i p⟩ : Config S σ ι α).advance
        (Function.update f i none) := by
  refine congrArg (Config.mk _) ?_
  funext j
  by_cases hj : j = i
  · subst hj
    simp
  · simp [Function.update_of_ne hj]

end Config

section Shadows

variable [DecidableEq ι]

/-- The atomic machine went from `a` to `x` while these processes took one step each of another
machine: at each of the steps the process may have performed one operation here. -/
inductive Shadows (A : Machine S σ ε) (a : Config S σ ι α) : List ι → Config S σ ι α → Prop
  | start : Shadows A a [] a
  | wait {is : List ι} {x : Config S σ ι α} (i : ι) (h : Shadows A a is x) :
      Shadows A a (is ++ [i]) x
  | move {is : List ι} {x : Config S σ ι α} (i : ι) (e : ε) (h : Shadows A a is x) :
      Shadows A a (is ++ [i]) (x.step A i e)

/-- What every step of the atomic machine keeps holds of its shadows. -/
theorem Shadows.invariant {A : Machine S σ ε} {a x : Config S σ ι α} {is : List ι}
    {I : Config S σ ι α → Prop} (hstep : ∀ c i e, I c → I (c.step A i e))
    (h : Shadows A a is x) (ha : I a) : I x := by
  induction h with
  | start => exact ha
  | wait i _ ih => exact ih
  | move i e _ ih => exact hstep _ i e ih

/-- A shadow is where a run of the atomic machine leads, one operation at most at each step. -/
theorem Shadows.run {A : Machine S σ ε} {a x : Config S σ ι α} {is : List ι}
    (h : Shadows A a is x) :
    ∃ moves, x = a.run A moves ∧ (moves.map Prod.fst).Sublist is := by
  induction h with
  | start => exact ⟨[], rfl, .slnil⟩
  | wait i _ ih =>
    obtain ⟨moves, hx, hsub⟩ := ih
    exact ⟨moves, hx, hsub.trans (List.sublist_append_left _ _)⟩
  | move i e _ ih =>
    obtain ⟨moves, rfl, hsub⟩ := ih
    refine ⟨moves ++ [(i, e)], by simp [Config.run], ?_⟩
    rw [List.map_append]
    exact hsub.append (List.Sublist.refl _)

end Shadows

/-- Some of the processes that may be further on are. -/
def Within (f' f : ι → Option (Proc S α)) : Prop := ∀ i, f' i = none ∨ f' i = f i

section Settling

variable [DecidableEq ι] {A : Machine S σ ε} {a x : Config S σ ι α} {is : List ι}
  {f : ι → Option (Proc S α)} {i : ι} {o : S.Op} {k : S.Answer o → Prog S α}

/-- Whichever operations have taken effect already, the next one may settle. -/
theorem Shadows.settle {d d' : Outlook (S.Answer o)} {s' : σ}
    (hx : ∀ f', Within f' f → Shadows A a is (x.advance f'))
    (hp : (x.procs i).prog = d.prog k) (hf : f i = d.offer k)
    (h : Settles A o d x.shared d' s') :
    ∃ x' : Config S σ ι α, x'.shared = s' ∧ (x'.procs i).prog = d'.prog k ∧
      (∀ j, j ≠ i → x'.procs j = x.procs j) ∧
      ∀ f', Within f' (Function.update f i (d'.offer k)) →
        Shadows A a (is ++ [i]) (x'.advance f') := by
  have hoff {f' : ι → Option (Proc S α)} (hf' : Within f' (Function.update f i none)) :
      f' i = none ∧ Within f' f := by
    have hi : f' i = none := by
      obtain hnone | hsome := hf' i
      · exact hnone
      · rw [hsome, Function.update_self]
    refine ⟨hi, fun j => ?_⟩
    by_cases hj : j = i
    · exact .inl (hj ▸ hi)
    · have hwithin := hf' j
      rwa [Function.update_of_ne hj] at hwithin
  -- an operation that takes effect now does so whichever of the others have
  have hmove {f' : ι → Option (Proc S α)} (hi : f' i = none) (hf' : Within f' f) (e : ε) :
      Shadows A a (is ++ [i]) ((x.step A i e).advance f') := by
    rw [← Config.step_advance A x hi]
    exact .move i e (hx f' hf')
  cases h with
  | wait =>
    refine ⟨x, rfl, hp, fun j _ => rfl, fun f' hf' => .wait i (hx f' ?_)⟩
    rwa [← hf, Function.update_eq_self] at hf'
  | land hd e =>
    have hcall : (x.procs i).prog = .call o k := by
      cases d with
      | pending => exact hp
      | offered r => exact hp
      | settled r => exact hd.elim
    refine ⟨x.step A i e, ?_, ?_, fun j hj => x.step_procs_ne A hj e, fun f' hf' => ?_⟩
    · rw [Config.step_shared, hcall]
      rfl
    · rw [Config.step_prog, hcall]
      rfl
    · obtain ⟨hi, hwithin⟩ := hoff hf'
      exact hmove hi hwithin e
  | @offer r s e he =>
    refine ⟨x, rfl, hp, fun j _ => rfl, fun f' hf' => ?_⟩
    obtain hnone | hsome := hf' i
    · refine .wait i (hx f' fun j => ?_)
      by_cases hj : j = i
      · exact .inl (hj ▸ hnone)
      · have hwithin := hf' j
        rwa [Function.update_of_ne hj] at hwithin
    · rw [Function.update_self] at hsome
      have hless : Within (Function.update f' i none) f := by
        intro j
        by_cases hj : j = i
        · subst hj
          exact .inl (Function.update_self ..)
        · have hwithin := hf' j
          rwa [Function.update_of_ne hj] at hwithin ⊢
      have hstep : x.step A i e = ⟨x.shared, Function.update x.procs i ⟨k r, some ⟨o, r⟩⟩⟩ := by
        rw [Config.step]
        simp only [hp, Outlook.prog, he]
      have hsame : x.advance f' = (x.step A i e).advance (Function.update f' i none) := by
        rw [hstep, ← Config.advance_update, ← Function.update_eq_self i f', hsome]
        simp [Outlook.offer]
      rw [hsame]
      exact hmove (Function.update_self ..) hless e
  | accept r =>
    refine ⟨⟨x.shared, Function.update x.procs i ⟨k r, some ⟨o, r⟩⟩⟩, rfl, ?_, ?_, fun f' hf' => ?_⟩
    · simp [Outlook.prog]
    · exact fun j hj => Function.update_of_ne hj _ _
    · obtain ⟨hi, hwithin⟩ := hoff hf'
      have hnone : Function.update f' i none = f' := by rw [← hi, Function.update_eq_self]
      rw [← hnone, ← Config.advance_update]
      refine .wait i (hx _ fun j => ?_)
      by_cases hj : j = i
      · subst hj
        rw [Function.update_self, hf]
        exact .inr rfl
      · rw [Function.update_of_ne hj]
        exact hwithin j

end Settling

namespace Layer

variable {C : Machine T τ η} {A : Machine S σ ε} (L : Layer C A γ)
  (impl : ∀ o, Prog T (S.Answer o)) (P : S.Op → Prop)

/-- Where a process stands: its program below, its program in the atomic machine, the one it may
have come to there already, and what it holds. -/
inductive Tracks : Prog T α → Prog S α → Option (Proc S α) → γ → Prop
  | done (a : α) (g : γ) : Tracks (.ret a) (.ret a) none g
  | busy {o : S.Op} {k : S.Answer o → Prog S α} {c : T.Op} {m : T.Answer c → Prog T (S.Answer o)}
      {g : γ} (d : Outlook (S.Answer o)) (hk : ∀ r, (k r).Only P)
      (h : L.Lin o (fun a d _ => d.Closes A o a) (.call c m) d g) :
      Tracks ((Prog.call c m).bind fun r => (k r).expand impl) (d.prog k) (d.offer k) g

/-- A configuration below and the atomic machine's: whichever operations have taken effect already,
the atomic machine can have come this far. -/
structure Agrees [DecidableEq ι] (a : Config S σ ι α) (is : List ι) (c : Config T τ ι α)
    (x : Config S σ ι α) (f : ι → Option (Proc S α)) (g : ι → γ) : Prop where
  shadows : ∀ f', Within f' f → Shadows A a is (x.advance f')
  rel : L.Rel c.shared x.shared
  own : ∀ i, L.Own (g i) c.shared
  apart : ∀ i j, i ≠ j → L.apart (g i) (g j)
  tracks : ∀ i, L.Tracks impl P (c.procs i).prog (x.procs i).prog (f i) (g i)

variable {L impl P}

theorem Tracks.start (himpl : ∀ o, P o → L.Implements o (impl o)) {p : Prog S α}
    (hp : p.Only P) : L.Tracks impl P (p.expand impl) p none L.idle := by
  cases p with
  | ret a => exact .done a _
  | call o k =>
    have hlin := (himpl o hp.1).lin
    have hcalls := (himpl o hp.1).calls
    cases hm : impl o with
    | ret a => exact absurd hm (hcalls a)
    | call c m =>
      rw [hm] at hlin
      have hbusy : L.Tracks impl P ((Prog.call c m).bind fun r => (k r).expand impl)
          (Outlook.pending.prog k) (Outlook.pending.offer k) L.idle :=
        Tracks.busy .pending hp.2 hlin
      rwa [← hm] at hbusy

/-- The process after a step of an operation, which has settled if it returns. -/
theorem Tracks.after (himpl : ∀ o, P o → L.Implements o (impl o)) {o : S.Op}
    {k : S.Answer o → Prog S α} (hk : ∀ r, (k r).Only P) {m : Prog T (S.Answer o)}
    {d : Outlook (S.Answer o)} {g : γ} (h : L.Lin o (fun a d _ => d.Closes A o a) m d g)
    (hret : ∀ b, m = .ret b → d = .settled b) :
    ∃ g', (g' = g ∨ g' = L.idle) ∧
      L.Tracks impl P (m.bind fun r => (k r).expand impl) (d.prog k) (d.offer k) g' := by
  cases m with
  | ret b =>
    rw [hret b rfl]
    exact ⟨L.idle, .inr rfl, .start himpl (hk b)⟩
  | call c m => exact ⟨g, .inl rfl, .busy d hk h⟩

variable [DecidableEq ι]

theorem Agrees.start (himpl : ∀ o, P o → L.Implements o (impl o)) {p : ι → Prog S α}
    (hp : ∀ i, (p i).Only P) {t : τ} {s : σ} (hrel : L.Rel t s) :
    L.Agrees impl P ⟨s, fun i => .start (p i)⟩ []
      ⟨t, fun i => .start ((p i).expand impl)⟩ ⟨s, fun i => .start (p i)⟩
      (fun _ => none) (fun _ => L.idle) where
  shadows f' hf' := by
    have hnone : f' = fun _ => none := funext fun i => (hf' i).elim id id
    rw [hnone, Config.advance_none]
    exact .start
  rel := hrel
  own _ := L.own_idle t
  apart _ _ _ := L.apart_idle L.idle
  tracks i := .start himpl (hp i)

/-- One step below, and what the atomic machine makes of it. -/
theorem Agrees.step (himpl : ∀ o, P o → L.Implements o (impl o)) {a x : Config S σ ι α}
    {is : List ι} {c : Config T τ ι α} {f : ι → Option (Proc S α)} {g : ι → γ}
    (h : L.Agrees impl P a is c x f g) {i : ι} {e : η}
    (hadm : ∀ o k, (c.procs i).prog = .call o k → L.admits e o c.shared) :
    ∃ x' f' g', L.Agrees impl P a (is ++ [i]) (c.step C i e) x' f' g' := by
  have htracks := h.tracks i
  generalize hq : (c.procs i).prog = q at htracks
  generalize hp : (x.procs i).prog = p at htracks
  generalize hf : f i = off at htracks
  generalize hg : g i = held at htracks
  cases htracks with
  | done b =>
    have hsame : c.step C i e = c := by simp only [Config.step, hq]
    rw [hsame]
    exact ⟨x, f, g, fun f' hf' => .wait i (h.shadows f' hf'), h.rel, h.own, h.apart, h.tracks⟩
  | @busy o k op m _ d hk hlin =>
    have hown : L.Own held c.shared := hg ▸ h.own i
    obtain ⟨d₁, s', g₁, hset, hrel, hown', hframe, hnext⟩ :=
      hlin c.shared x.shared e h.rel hown (hadm _ _ hq)
    obtain ⟨d', hset', hlin', hret⟩ : ∃ d', Settles A o d x.shared d' s' ∧
        L.Lin o (fun a d _ => d.Closes A o a) (m (C.exec e op c.shared).1) d' g₁ ∧
        ∀ b, m (C.exec e op c.shared).1 = .ret b → d' = .settled b := by
      cases hm : m (C.exec e op c.shared).1 with
      | ret b =>
        rw [hm] at hnext
        exact ⟨.settled b, hset.close hnext, rfl, fun b' hb' => by cases hb'; rfl⟩
      | call c' m' =>
        rw [hm] at hnext
        exact ⟨d₁, hset, hnext, fun b hb => by cases hb⟩
    obtain ⟨x', hshared, hprog, hothers, hshadows⟩ := Shadows.settle h.shadows hp hf hset'
    obtain ⟨g', hg', htracks'⟩ := Tracks.after himpl hk hlin' hret
    have hstep : c.step C i e = ⟨(C.exec e op c.shared).2, Function.update c.procs i
        ⟨(m (C.exec e op c.shared).1).bind fun r => (k r).expand impl,
          some ⟨op, (C.exec e op c.shared).1⟩⟩⟩ := by
      simp only [Config.step, hq, Prog.call_bind]
    have hframed (j : ι) (hj : j ≠ i) : L.Own (g j) (C.exec e op c.shared).2 ∧
        L.apart (g j) g' := by
      obtain ⟨howns, hapart⟩ := hframe (g j) (hg ▸ h.apart j i hj) (h.own j)
      refine ⟨howns, ?_⟩
      obtain rfl | rfl := hg'
      · exact hapart
      · exact L.apart_idle _
    refine ⟨x', Function.update f i (d'.offer k), Function.update g i g', hshadows, ?_, ?_, ?_, ?_⟩
    · rw [hstep, hshared]
      exact hrel
    · intro j
      rw [hstep]
      by_cases hj : j = i
      · subst hj
        rw [Function.update_self]
        obtain rfl | rfl := hg'
        · exact hown'
        · exact L.own_idle _
      · rw [Function.update_of_ne hj]
        exact (hframed j hj).1
    · intro j j' hne
      by_cases hj : j = i
      · subst hj
        rw [Function.update_self, Function.update_of_ne hne.symm]
        exact L.apart_symm _ _ (hframed j' hne.symm).2
      · rw [Function.update_of_ne hj]
        by_cases hj' : j' = i
        · subst hj'
          rw [Function.update_self]
          exact (hframed j hj).2
        · rw [Function.update_of_ne hj']
          exact h.apart j j' hne
    · intro j
      rw [hstep]
      by_cases hj : j = i
      · subst hj
        simp only [Function.update_self, hprog]
        exact htracks'
      · simp only [Function.update_of_ne hj, hothers j hj]
        exact h.tracks j

/-- Every step of the schedule is one the layer admits. -/
def Admitted (L : Layer C A γ) (c : Config T τ ι α) (i : ι) (e : η) : Prop :=
  ∀ o k, (c.procs i).prog = .call o k → L.admits e o c.shared

theorem Agrees.run (himpl : ∀ o, P o → L.Implements o (impl o)) {a x : Config S σ ι α}
    {is : List ι} {c : Config T τ ι α} {f : ι → Option (Proc S α)} {g : ι → γ}
    (h : L.Agrees impl P a is c x f g) {moves : List (ι × η)}
    (hmoves : c.Guarded C L.Admitted moves) :
    ∃ x' f' g', L.Agrees impl P a (is ++ moves.map Prod.fst) (c.run C moves) x' f' g' := by
  induction moves generalizing is c x f g with
  | nil => exact ⟨x, f, g, by simpa [Config.run] using h⟩
  | cons m moves ih =>
    obtain ⟨x₁, f₁, g₁, hstep⟩ := h.step himpl hmoves.1
    obtain ⟨x', f', g', hrun⟩ := ih hstep hmoves.2
    exact ⟨x', f', g', by simpa [Config.run] using hrun⟩

theorem Tracks.ret {q : Prog T α} {p : Prog S α} {f : Option (Proc S α)} {g : γ} {b : α}
    (h : L.Tracks impl P q p f g) (hq : q = .ret b) : p = .ret b := by
  cases h with
  | done b' => cases hq; rfl
  | busy d hk hlin => cases hq

/-- Programs of atomic operations, each carried out by a program that implements it: wherever a run
leads, the atomic machine leads to a state that corresponds to it by operations that take effect at
one of their own steps, and whoever has finished has the answer the atomic machine gave it. -/
theorem linearizable (himpl : ∀ o, P o → L.Implements o (impl o)) {p : ι → Prog S α}
    (hp : ∀ i, (p i).Only P) {t : τ} {s : σ} (hrel : L.Rel t s) {moves : List (ι × η)}
    (hmoves : Config.Guarded C L.Admitted ⟨t, fun i => .start ((p i).expand impl)⟩ moves) :
    ∃ x, Shadows A ⟨s, fun i => .start (p i)⟩ (moves.map Prod.fst) x ∧
      L.Rel ((⟨t, fun i => .start ((p i).expand impl)⟩ : Config T τ ι α).run C moves).shared
        x.shared ∧
      ∀ i b, (((⟨t, fun i => .start ((p i).expand impl)⟩ : Config T τ ι α).run C moves).procs
        i).prog = .ret b → (x.procs i).prog = .ret b := by
  obtain ⟨x, f, g, hagrees⟩ := (Agrees.start himpl hp hrel).run himpl hmoves
  have hshadows := hagrees.shadows (fun _ => none) fun _ => .inl rfl
  rw [Config.advance_none, List.nil_append] at hshadows
  exact ⟨x, hshadows, hagrees.rel, fun i b hb => (hagrees.tracks i).ret hb⟩

end Layer

end Interleave
