import Mathlib.Logic.Relation
import Mathlib.Logic.Function.Basic

/-! Programs over atomic operations, their interleavings, and rely-guarantee rules for them. -/
namespace Interleave

/-- The operations of a shared resource, each with the type of its answer. -/
structure Signature where
  Op : Type
  Answer : Op → Type

/-- A program is a tree of operations, branching on every possible answer. -/
inductive Prog (S : Signature) (α : Type) where
  | ret (a : α)
  | call (o : S.Op) (k : S.Answer o → Prog S α)

variable {S : Signature} {α β γ : Type}

namespace Prog

def bind : Prog S α → (α → Prog S β) → Prog S β
  | ret a, f => f a
  | call o k, f => call o fun r => (k r).bind f

instance : Monad (Prog S) where
  pure := ret
  bind := bind

/-- Sequencing that stops at the first error. -/
def attempt {E : Type} (p : Prog S (Except E α)) (f : α → Prog S (Except E β)) :
    Prog S (Except E β) :=
  p.bind fun r =>
    match r with
    | .ok a => f a
    | .error e => ret (.error e)

@[simp] theorem ret_bind (a : α) (f : α → Prog S β) : (ret a : Prog S α).bind f = f a := rfl

@[simp] theorem call_bind (o : S.Op) (k : S.Answer o → Prog S α) (f : α → Prog S β) :
    (call o k).bind f = call o fun r => (k r).bind f := rfl

@[simp] theorem pure_eq (a : α) : (pure a : Prog S α) = ret a := rfl

@[simp] theorem bind_eq (p : Prog S α) (f : α → Prog S β) : p >>= f = p.bind f := rfl

/-- The answer of a program when every operation is answered by a fixed reply. -/
def answer (reply : ∀ o, S.Answer o) : Prog S α → α
  | ret a => a
  | call o k => (k (reply o)).answer reply

@[simp] theorem answer_ret (reply : ∀ o, S.Answer o) (a : α) :
    (ret a : Prog S α).answer reply = a := rfl

@[simp] theorem answer_call (reply : ∀ o, S.Answer o) (o : S.Op)
    (k : S.Answer o → Prog S α) : (call o k).answer reply = (k (reply o)).answer reply := rfl

@[simp] theorem answer_bind (reply : ∀ o, S.Answer o) (p : Prog S α) (f : α → Prog S β) :
    (p.bind f).answer reply = (f (p.answer reply)).answer reply := by
  induction p with
  | ret a => rfl
  | call o k ih => exact ih (reply o)

/-- Every operation the program can come to perform meets `P`. -/
def Only (P : S.Op → Prop) : Prog S α → Prop
  | ret _ => True
  | call o k => P o ∧ ∀ r, (k r).Only P

theorem Only.mono {P Q : S.Op → Prop} (hPQ : ∀ o, P o → Q o) {p : Prog S α} (hp : p.Only P) :
    p.Only Q := by
  induction p with
  | ret a => trivial
  | call o k ih => exact ⟨hPQ o hp.1, fun r => ih r (hp.2 r)⟩

theorem Only.bind {P : S.Op → Prop} {p : Prog S α} {f : α → Prog S β} (hp : p.Only P)
    (hf : ∀ a, (f a).Only P) : (p.bind f).Only P := by
  induction p with
  | ret a => exact hf a
  | call o k ih => exact ⟨hp.1, fun r => ih r (hp.2 r)⟩

theorem Only.attempt {P : S.Op → Prop} {E : Type} {p : Prog S (Except E α)}
    {f : α → Prog S (Except E β)} (hp : p.Only P) (hf : ∀ a, (f a).Only P) :
    (p.attempt f).Only P := by
  refine hp.bind fun r => ?_
  cases r with
  | ok a => exact hf a
  | error e => trivial

end Prog

/-- What one operation does to the shared state; `ε` is the environment's choice for the step. -/
structure Machine (S : Signature) (σ ε : Type) where
  exec : ε → (o : S.Op) → σ → S.Answer o × σ

/-- An operation together with the answer it got. -/
abbrev Event (S : Signature) := Σ o : S.Op, S.Answer o

/-- The program meets the events, in this order, and becomes `q`. -/
inductive Trace : Prog S α → List (Event S) → Prog S α → Prop
  | nil (p : Prog S α) : Trace p [] p
  | cons {o : S.Op} {k : S.Answer o → Prog S α} {r : S.Answer o} {es : List (Event S)}
      {q : Prog S α} (h : Trace (k r) es q) : Trace (.call o k) (⟨o, r⟩ :: es) q

theorem Trace.eq_call {p q : Prog S α} {o : S.Op} {r : S.Answer o} {es : List (Event S)}
    (h : Trace p (⟨o, r⟩ :: es) q) : ∃ k, p = .call o k ∧ Trace (k r) es q := by
  cases h with
  | cons h => exact ⟨_, rfl, h⟩

theorem Trace.of_call {o : S.Op} {k : S.Answer o → Prog S α} {r : S.Answer o}
    {es : List (Event S)} {q : Prog S α} (h : Trace (.call o k) (⟨o, r⟩ :: es) q) :
    Trace (k r) es q := by
  obtain ⟨k', heq, h'⟩ := h.eq_call
  cases heq
  exact h'

theorem Trace.eq_of_nil {p q : Prog S α} (h : Trace p [] q) : q = p := by
  cases h
  rfl

theorem Trace.split {es fs : List (Event S)} {p q : Prog S α} (h : Trace p (es ++ fs) q) :
    ∃ m, Trace p es m ∧ Trace m fs q := by
  induction es generalizing p with
  | nil => exact ⟨p, .nil p, h⟩
  | cons e es ih =>
    obtain ⟨o, r⟩ := e
    obtain ⟨k, rfl, hrest⟩ := h.eq_call
    obtain ⟨m, hm, hq⟩ := ih hrest
    exact ⟨m, .cons hm, hq⟩

/-- Whatever a program comes to meets `P`. -/
def Prog.Always (P : Prog S α → Prop) : Prog S α → Prop
  | .ret a => P (.ret a)
  | .call o k => P (.call o k) ∧ ∀ r, (k r).Always P

theorem Prog.Always.trace {P : Prog S α → Prop} {p q : Prog S α} {es : List (Event S)}
    (hp : p.Always P) (h : Trace p es q) : P q := by
  induction h with
  | nil p =>
    cases p with
    | ret a => exact hp
    | call o k => exact hp.1
  | @cons o k r es q h ih => exact ih (hp.2 r)

/-- Operations of one kind lead to what follows them. -/
theorem Prog.Always.attempt {E : Type} {Q : S.Op → Prop} {P : Prog S (Except E β) → Prop}
    (hcall : ∀ o k, Q o → P (.call o k)) (hret : ∀ r, P (.ret r)) {p : Prog S (Except E α)}
    {f : α → Prog S (Except E β)} (hp : p.Only Q) (hf : ∀ a, (f a).Always P) :
    (p.attempt f).Always P := by
  induction p with
  | ret r =>
    cases r with
    | ok a => exact hf a
    | error e => exact hret _
  | call o k ih => exact ⟨hcall o _ hp.1, fun r => ih r (hp.2 r)⟩

/-- A process: what is left to run, and the last operation it completed. -/
structure Proc (S : Signature) (α : Type) where
  prog : Prog S α
  last : Option (Event S)

def Proc.start (p : Prog S α) : Proc S α := ⟨p, none⟩

structure Config (S : Signature) (σ ι α : Type) where
  shared : σ
  procs : ι → Proc S α

variable {σ ε ι : Type} [DecidableEq ι]

/-- Process `i` performs its next operation; a finished process stays as it is. -/
def Config.step (M : Machine S σ ε) (c : Config S σ ι α) (i : ι) (e : ε) : Config S σ ι α :=
  match (c.procs i).prog with
  | .ret _ => c
  | .call o k =>
    let r := M.exec e o c.shared
    ⟨r.2, Function.update c.procs i ⟨k r.1, some ⟨o, r.1⟩⟩⟩

/-- The program and the shared state after one operation. -/
def Prog.move (M : Machine S σ ε) (e : ε) (s : σ) : Prog S α → Prog S α × σ
  | .ret a => (.ret a, s)
  | .call o k => (k (M.exec e o s).1, (M.exec e o s).2)

theorem Config.step_shared (M : Machine S σ ε) (c : Config S σ ι α) (i : ι) (e : ε) :
    (c.step M i e).shared = ((c.procs i).prog.move M e c.shared).2 := by
  cases hp : (c.procs i).prog <;> simp [Config.step, Prog.move, hp]

theorem Config.step_prog (M : Machine S σ ε) (c : Config S σ ι α) (i : ι) (e : ε) :
    ((c.step M i e).procs i).prog = ((c.procs i).prog.move M e c.shared).1 := by
  cases hp : (c.procs i).prog <;> simp [Config.step, Prog.move, hp]

theorem Config.step_procs_ne (M : Machine S σ ε) (c : Config S σ ι α) {i j : ι} (h : j ≠ i)
    (e : ε) : (c.step M i e).procs j = c.procs j := by
  cases hp : (c.procs i).prog <;> simp [Config.step, hp, Function.update_of_ne h]

/-- A scheduled run: which process moves, and what the environment chooses for it. -/
def Config.run (M : Machine S σ ε) (c : Config S σ ι α) (moves : List (ι × ε)) : Config S σ ι α :=
  moves.foldl (fun c m => c.step M m.1 m.2) c

theorem Config.run_append (M : Machine S σ ε) (c : Config S σ ι α) (before after : List (ι × ε)) :
    c.run M (before ++ after) = (c.run M before).run M after := List.foldl_append

/-- A relation that holds across each allowed operation holds across every run of programs
confined to them. -/
theorem Config.run_relates {M : Machine S σ ε} {P : S.Op → Prop} {Rel : σ → σ → Prop}
    (hrefl : ∀ s, Rel s s) (htrans : ∀ s t u, Rel s t → Rel t u → Rel s u)
    (hop : ∀ e o s, P o → Rel s (M.exec e o s).2) {c : Config S σ ι α}
    (hc : ∀ i, (c.procs i).prog.Only P) (moves : List (ι × ε)) :
    Rel c.shared (c.run M moves).shared ∧ ∀ i, ((c.run M moves).procs i).prog.Only P := by
  induction moves generalizing c with
  | nil => exact ⟨hrefl _, hc⟩
  | cons m moves ih =>
    have hmove := hc m.1
    have hstep : Rel c.shared (c.step M m.1 m.2).shared := by
      rw [Config.step_shared]
      cases hp : (c.procs m.1).prog with
      | ret a => exact hrefl _
      | call o k => exact hop m.2 o _ (hp ▸ hmove).1
    have honly : ∀ i, ((c.step M m.1 m.2).procs i).prog.Only P := by
      intro i
      by_cases hi : i = m.1
      · subst hi
        rw [Config.step_prog]
        cases hp : (c.procs m.1).prog with
        | ret a => trivial
        | call o k => exact (hp ▸ hmove).2 _
      · rw [Config.step_procs_ne M c hi]
        exact hc i
    obtain ⟨hrest, hafter⟩ := ih honly
    exact ⟨htrans _ _ _ hstep hrest, hafter⟩

/-- One step that meets `good` in the configuration it is taken from. -/
def Next (M : Machine S σ ε) (good : Config S σ ι α → ι → ε → Prop)
    (c d : Config S σ ι α) : Prop :=
  ∃ i e, good c i e ∧ d = c.step M i e

/-- Reachable by steps that all meet `good`. -/
def Reach (M : Machine S σ ε) (good : Config S σ ι α → ι → ε → Prop) :
    Config S σ ι α → Config S σ ι α → Prop :=
  Relation.ReflTransGen (Next M good)

/-- An assertion kept by every good step holds wherever it held at the start. -/
theorem Reach.invariant {M : Machine S σ ε} {good : Config S σ ι α → ι → ε → Prop}
    {I : Config S σ ι α → Prop} {c d : Config S σ ι α}
    (hstep : ∀ c i e, good c i e → I c → I (c.step M i e)) (hr : Reach M good c d)
    (hc : I c) : I d := by
  induction hr with
  | refl => exact hc
  | tail _ hn ih =>
    obtain ⟨i, e, hg, rfl⟩ := hn
    exact hstep _ i e hg ih

/-- Every step of the schedule meets `good`. -/
def Config.Guarded (M : Machine S σ ε) (good : Config S σ ι α → ι → ε → Prop) :
    Config S σ ι α → List (ι × ε) → Prop
  | _, [] => True
  | c, m :: moves => good c m.1 m.2 ∧ (c.step M m.1 m.2).Guarded M good moves

/-- Every configuration along the schedule meets `P`. -/
def Config.Throughout (M : Machine S σ ε) (P : Config S σ ι α → Prop) :
    Config S σ ι α → List (ι × ε) → Prop
  | c, [] => P c
  | c, m :: moves => P c ∧ (c.step M m.1 m.2).Throughout M P moves

theorem Config.Guarded.mono {M : Machine S σ ε} {good good' : Config S σ ι α → ι → ε → Prop}
    (hgood : ∀ c i e, good c i e → good' c i e) {moves : List (ι × ε)} {c : Config S σ ι α}
    (h : c.Guarded M good moves) : c.Guarded M good' moves := by
  induction moves generalizing c with
  | nil => trivial
  | cons m moves ih => exact ⟨hgood c m.1 m.2 h.1, ih h.2⟩

theorem Config.Guarded.append {M : Machine S σ ε} {good : Config S σ ι α → ι → ε → Prop}
    {before after : List (ι × ε)} {c : Config S σ ι α} (h : c.Guarded M good (before ++ after)) :
    c.Guarded M good before ∧ (c.run M before).Guarded M good after := by
  induction before generalizing c with
  | nil => exact ⟨trivial, h⟩
  | cons m before ih =>
    obtain ⟨hm, hrest⟩ := h
    obtain ⟨hbefore, hafter⟩ := ih hrest
    exact ⟨⟨hm, hbefore⟩, hafter⟩

theorem Config.guarded_of_forall {M : Machine S σ ε} {good : Config S σ ι α → ι → ε → Prop}
    {moves : List (ι × ε)} {c : Config S σ ι α}
    (h : ∀ before m after, moves = before ++ m :: after → good (c.run M before) m.1 m.2) :
    c.Guarded M good moves := by
  induction moves generalizing c with
  | nil => trivial
  | cons m moves ih =>
    refine ⟨h [] m moves rfl, ih fun before m' after hmoves => ?_⟩
    exact h (m :: before) m' after (by rw [hmoves, List.cons_append])

theorem Config.Guarded.reach {M : Machine S σ ε} {good : Config S σ ι α → ι → ε → Prop}
    {moves : List (ι × ε)} {c : Config S σ ι α} (h : c.Guarded M good moves) :
    Reach M good c (c.run M moves) := by
  induction moves generalizing c with
  | nil => exact .refl
  | cons m moves ih => exact Relation.ReflTransGen.head ⟨m.1, m.2, h.1, rfl⟩ (ih h.2)

/-- Along a guarded schedule every configuration is reachable by good steps. -/
theorem Config.Guarded.throughout {M : Machine S σ ε} {good : Config S σ ι α → ι → ε → Prop}
    {P : Config S σ ι α → Prop} {moves : List (ι × ε)} {c : Config S σ ι α}
    (h : c.Guarded M good moves) (hP : ∀ d, Reach M good c d → P d) :
    c.Throughout M P moves := by
  induction moves generalizing c with
  | nil => exact hP c .refl
  | cons m moves ih =>
    refine ⟨hP c .refl, ih h.2 fun d hd => hP d ?_⟩
    exact Relation.ReflTransGen.head ⟨m.1, m.2, h.1, rfl⟩ hd

theorem Config.Throughout.last {M : Machine S σ ε} {P : Config S σ ι α → Prop}
    {moves : List (ι × ε)} {c : Config S σ ι α} (h : c.Throughout M P moves) :
    P (c.run M moves) := by
  induction moves generalizing c with
  | nil => exact h
  | cons m moves ih => exact ih h.2

/-- A guard is the exact condition for `P` when good steps keep an invariant that implies `P`, and
every other step breaks `P` at once. -/
theorem Config.throughout_iff_guarded {M : Machine S σ ε}
    {good : Config S σ ι α → ι → ε → Prop} {I P : Config S σ ι α → Prop}
    (hstep : ∀ c i e, I c → good c i e → I (c.step M i e)) (hP : ∀ c, I c → P c)
    (hbad : ∀ c i e, I c → ¬ good c i e → ¬ P (c.step M i e)) (moves : List (ι × ε))
    {c : Config S σ ι α} (hc : I c) : c.Throughout M P moves ↔ c.Guarded M good moves := by
  induction moves generalizing c with
  | nil => exact ⟨fun _ => trivial, fun _ => hP c hc⟩
  | cons m moves ih =>
    constructor
    · rintro ⟨_, hrest⟩
      have hg : good c m.1 m.2 := by
        by_contra hg
        apply hbad c m.1 m.2 hc hg
        cases moves with
        | nil => exact hrest
        | cons n moves => exact hrest.1
      exact ⟨hg, (ih (hstep c _ _ hc hg)).mp hrest⟩
    · rintro ⟨hg, hrest⟩
      exact ⟨hP c hc, (ih (hstep c _ _ hc hg)).mpr hrest⟩

section Contract

variable (M : Machine S σ ε) (admits : ε → Option (Event S) → S.Op → σ → Prop)
  (R G : σ → σ → Prop)

/-- Whatever `R` lets the others do between its operations, each operation the program performs
under `admits` is within `G`, and its result satisfies `Q`. -/
def Sat (Q : α → σ → Prop) : Prog S α → Option (Event S) → σ → Prop
  | .ret a, _, s => ∀ s', R s s' → Q a s'
  | .call o k, last, s => ∀ s', R s s' → ∀ e, admits e last o s' →
      G s' (M.exec e o s').2 ∧
        Sat Q (k (M.exec e o s').1) (some ⟨o, (M.exec e o s').1⟩) (M.exec e o s').2

/-- The contract, whichever operation came before. -/
def Does (Q : α → σ → Prop) (p : Prog S α) (s : σ) : Prop :=
  ∀ last, Sat M admits R G Q p last s

variable {M admits R G}

theorem Sat.stable [IsTrans σ R] {Q : α → σ → Prop} {p : Prog S α}
    {last : Option (Event S)} {s s' : σ} (h : Sat M admits R G Q p last s) (hs : R s s') :
    Sat M admits R G Q p last s' := by
  cases p with
  | ret a => exact fun t ht => h t (Trans.trans hs ht)
  | call o k => exact fun t ht => h t (Trans.trans hs ht)

/-- Consequence: a stronger rely, a weaker guarantee and a weaker result. -/
theorem Sat.conseq {admits' : ε → Option (Event S) → S.Op → σ → Prop} {R' G' : σ → σ → Prop}
    {Q Q' : α → σ → Prop} (ha : ∀ e l o s, admits' e l o s → admits e l o s)
    (hR : ∀ s t, R' s t → R s t) (hG : ∀ s t, G s t → G' s t) (hQ : ∀ a s, Q a s → Q' a s)
    {p : Prog S α} {last : Option (Event S)} {s : σ} (h : Sat M admits R G Q p last s) :
    Sat M admits' R' G' Q' p last s := by
  induction p generalizing last s with
  | ret a => exact fun t ht => hQ a t (h t (hR s t ht))
  | call o k ih =>
    intro t ht e he
    obtain ⟨hg, hk⟩ := h t (hR s t ht) e (ha e last o t he)
    exact ⟨hG _ _ hg, ih _ hk⟩

/-- What both the rely and the guarantee keep still holds at the end. -/
theorem Sat.frame {K : σ → Prop} (hR : ∀ s t, R s t → K s → K t)
    (hG : ∀ s t, G s t → K s → K t)
    {Q : α → σ → Prop} {p : Prog S α} {last : Option (Event S)} {s : σ}
    (h : Sat M admits R G Q p last s) (hs : K s) :
    Sat M admits R G (fun a t => Q a t ∧ K t) p last s := by
  induction p generalizing last s with
  | ret a => exact fun t ht => ⟨h t ht, hR s t ht hs⟩
  | call o k ih =>
    intro t ht e he
    obtain ⟨hg, hk⟩ := h t ht e he
    exact ⟨hg, ih _ hk (hG _ _ hg (hR _ _ ht hs))⟩

theorem Sat.forall {X : Type} [Nonempty X] {Q : X → α → σ → Prop} {p : Prog S α}
    {last : Option (Event S)} {s : σ} (h : ∀ x, Sat M admits R G (Q x) p last s) :
    Sat M admits R G (fun a t => ∀ x, Q x a t) p last s := by
  induction p generalizing last s with
  | ret a => exact fun t ht x => h x t ht
  | call o k ih =>
    intro t ht e he
    obtain ⟨x⟩ := ‹Nonempty X›
    exact ⟨(h x t ht e he).1, ih _ fun x => (h x t ht e he).2⟩

/-- Sequencing: the first program's result establishes what the second one starts from. -/
theorem Sat.bind [Std.Refl R] {Q : β → σ → Prop} {p : Prog S α} {f : α → Prog S β}
    {last : Option (Event S)} {s : σ}
    (h : Sat M admits R G (fun a t => Does M admits R G Q (f a) t) p last s) :
    Sat M admits R G Q (p.bind f) last s := by
  induction p generalizing last s with
  | ret a => exact h s (Std.Refl.refl s) last
  | call o k ih =>
    intro t ht e he
    obtain ⟨hg, hk⟩ := h t ht e he
    exact ⟨hg, ih _ hk⟩

theorem Does.conseq {R' G' : σ → σ → Prop} {Q Q' : α → σ → Prop} (hR : ∀ s t, R' s t → R s t)
    (hG : ∀ s t, G s t → G' s t) (hQ : ∀ a s, Q a s → Q' a s) {p : Prog S α} {s : σ}
    (h : Does M admits R G Q p s) : Does M admits R' G' Q' p s :=
  fun last => (h last).conseq (fun _ _ _ _ => id) hR hG hQ

theorem Does.mono {Q Q' : α → σ → Prop} (hQ : ∀ a s, Q a s → Q' a s) {p : Prog S α} {s : σ}
    (h : Does M admits R G Q p s) : Does M admits R G Q' p s :=
  h.conseq (fun _ _ => id) (fun _ _ => id) hQ

theorem Does.frame {K : σ → Prop} (hR : ∀ s t, R s t → K s → K t)
    (hG : ∀ s t, G s t → K s → K t) {Q : α → σ → Prop} {p : Prog S α} {s : σ}
    (h : Does M admits R G Q p s) (hs : K s) :
    Does M admits R G (fun a t => Q a t ∧ K t) p s :=
  fun last => (h last).frame hR hG hs

/-- A task that guarantees what it relies on is never cut off from where it started. -/
theorem Does.since [Std.Refl R] [IsTrans σ R] {Q : α → σ → Prop} {p : Prog S α} {s : σ}
    (h : Does M admits R R Q p s) : Does M admits R R (fun a t => Q a t ∧ R s t) p s := by
  apply h.frame (K := R s) _ _ (Std.Refl.refl s)
  · intro t u htu hst
    exact Trans.trans hst htu
  · intro t u htu hst
    exact Trans.trans hst htu

theorem Does.forall {X : Type} [Nonempty X] {Q : X → α → σ → Prop} {p : Prog S α} {s : σ}
    (h : ∀ x, Does M admits R G (Q x) p s) : Does M admits R G (fun a t => ∀ x, Q x a t) p s :=
  fun last => Sat.forall fun x => h x last

theorem Does.ret {Q : α → σ → Prop} {a : α} {s : σ} (h : ∀ t, R s t → Q a t) :
    Does M admits R G Q (.ret a) s := fun _ => h

theorem Does.bind [Std.Refl R] {Q : β → σ → Prop} {p : Prog S α} {f : α → Prog S β} {s : σ}
    (h : Does M admits R G (fun a t => Does M admits R G Q (f a) t) p s) :
    Does M admits R G Q (p.bind f) s := fun last => (h last).bind

theorem Does.attempt [Std.Refl R] {E : Type} {Q : Except E β → σ → Prop}
    {p : Prog S (Except E α)} {f : α → Prog S (Except E β)} {s : σ}
    (h : Does M admits R G (fun r t =>
      (∀ a, r = .ok a → Does M admits R G Q (f a) t) ∧
      ∀ e, r = .error e → ∀ t', R t t' → Q (.error e) t') p s) :
    Does M admits R G Q (p.attempt f) s := by
  refine Does.bind (h.mono ?_)
  rintro r t ⟨hok, herr⟩
  cases r with
  | ok a => exact hok a rfl
  | error e => exact Does.ret (herr e rfl)

/-- A single operation. -/
theorem Does.call {Q : α → σ → Prop} {o : S.Op} {k : S.Answer o → Prog S α} {s : σ}
    (h : ∀ t, R s t → ∀ e last, admits e last o t → G t (M.exec e o t).2 ∧
      Does M admits R G Q (k (M.exec e o t).1) (M.exec e o t).2) :
    Does M admits R G Q (.call o k) s := by
  intro last t ht e he
  obtain ⟨hg, hk⟩ := h t ht e last he
  exact ⟨hg, hk _⟩

/-- A run of the program in which the others take an `R` step before each of its operations, and
one more at the end. -/
inductive Raced (M : Machine S σ ε) (R : σ → σ → Prop) : Prog S α → σ → α → σ → Prop
  | ret {a : α} {s t : σ} (h : R s t) : Raced M R (.ret a) s a t
  | call {o : S.Op} {k : S.Answer o → Prog S α} {s t u : σ} {a : α} (e : ε) (h : R s t)
      (hk : Raced M R (k (M.exec e o t).1) (M.exec e o t).2 a u) : Raced M R (.call o k) s a u

/-- What the contract says of the result holds at the end of every such run. -/
theorem Sat.raced {Q : α → σ → Prop} {p : Prog S α} {s t : σ} {a : α}
    {last : Option (Event S)} (h : Sat M admits R G Q p last s)
    (hall : ∀ e l o s, admits e l o s) (hr : Raced M R p s a t) : Q a t := by
  induction hr generalizing last with
  | ret hR => exact h _ hR
  | call e hR hk ih => exact ih (h _ hR e (hall ..)).2

end Contract

section Contracts

variable {M : Machine S σ ε} {admits : ε → Option (Event S) → S.Op → σ → Prop}
  {R G : ι → σ → σ → Prop} {Q : ι → α → σ → Prop} [∀ i, IsTrans σ (R i)] [∀ i, Std.Refl (R i)]

/-- Every process meets its own contract. -/
def Contracts (M : Machine S σ ε) (admits : ε → Option (Event S) → S.Op → σ → Prop)
    (R G : ι → σ → σ → Prop) (Q : ι → α → σ → Prop) (c : Config S σ ι α) : Prop :=
  ∀ i, Sat M admits (R i) (G i) (Q i) (c.procs i).prog (c.procs i).last c.shared

/-- One admitted step is within its actor's guarantee, and the others' contracts stand it. -/
theorem Contracts.step {c : Config S σ ι α} (h : Contracts M admits R G Q c)
    (hcompat : ∀ i j, i ≠ j → ∀ s t, G j s t → R i s t) {i : ι} {e : ε}
    (hgood : ∀ o k, (c.procs i).prog = .call o k → admits e (c.procs i).last o c.shared) :
    Contracts M admits R G Q (c.step M i e) ∧
      ((c.step M i e).shared = c.shared ∨ G i c.shared (c.step M i e).shared) := by
  have hi := h i
  cases hp : (c.procs i).prog with
  | ret a => simpa only [Config.step, hp, true_or, and_true] using h
  | call o k =>
    rw [hp] at hi
    obtain ⟨hG, hk⟩ := hi c.shared (Std.Refl.refl _) e (hgood o k hp)
    simp only [Config.step, hp]
    refine ⟨fun j => ?_, .inr hG⟩
    by_cases hj : j = i
    · subst j
      simpa using hk
    · simpa [Function.update_of_ne hj] using (h j).stable (hcompat j i hj _ _ hG)

theorem Contracts.reach {good : Config S σ ι α → ι → ε → Prop} {c d : Config S σ ι α}
    (h : Contracts M admits R G Q c) (hcompat : ∀ i j, i ≠ j → ∀ s t, G j s t → R i s t)
    (hgood : ∀ c i e o k, good c i e → (c.procs i).prog = .call o k →
      admits e (c.procs i).last o c.shared) (hr : Reach M good c d) :
    Contracts M admits R G Q d :=
  hr.invariant (fun c i e hg hcon => (hcon.step hcompat fun o k => hgood c i e o k hg).1) h

/-- What every guarantee keeps holds throughout the runs of processes that meet their contracts. -/
theorem Contracts.invariant {good : Config S σ ι α → ι → ε → Prop} {I : σ → Prop}
    {c d : Config S σ ι α} (h : Contracts M admits R G Q c)
    (hcompat : ∀ i j, i ≠ j → ∀ s t, G j s t → R i s t)
    (hgood : ∀ c i e o k, good c i e → (c.procs i).prog = .call o k →
      admits e (c.procs i).last o c.shared)
    (hI : ∀ i s t, G i s t → I s → I t) (hc : I c.shared) (hr : Reach M good c d) :
    I d.shared := by
  induction hr with
  | refl => exact hc
  | tail hr hn ih =>
    obtain ⟨i, e, hg, rfl⟩ := hn
    obtain ⟨_, heq | hG⟩ := (h.reach hcompat hgood hr).step hcompat fun o k => hgood _ i e o k hg
    · rwa [heq]
    · exact hI i _ _ hG ih

end Contracts

end Interleave
