import Fafo.Library.Interleave

/-! One program run alone, each operation under the environment's choice for its number. -/
namespace Interleave

variable {S : Signature} {σ ε ι α β E : Type}

/-- How a program ended: its answer, the number of the next operation, and the shared state. -/
structure Ended (σ α : Type) where
  answer : α
  next : Nat
  state : σ

namespace Prog

/-- The first operation is number `n`. -/
def solo (M : Machine S σ ε) (env : Nat → ε) : Prog S α → Nat → σ → Ended σ α
  | ret a, n, s => ⟨a, n, s⟩
  | call o k, n, s =>
    solo M env (k (M.exec (env n) o s).1) (n + 1) (M.exec (env n) o s).2

variable (M : Machine S σ ε) (env : Nat → ε)

@[simp] theorem solo_ret (a : α) (n : Nat) (s : σ) :
    (ret a : Prog S α).solo M env n s = ⟨a, n, s⟩ := rfl

@[simp] theorem solo_call (o : S.Op) (k : S.Answer o → Prog S α) (n : Nat) (s : σ) :
    (call o k).solo M env n s =
      (k (M.exec (env n) o s).1).solo M env (n + 1) (M.exec (env n) o s).2 := rfl

theorem solo_bind (p : Prog S α) (f : α → Prog S β) (n : Nat) (s : σ) :
    (p.bind f).solo M env n s =
      (f (p.solo M env n s).answer).solo M env (p.solo M env n s).next
        (p.solo M env n s).state := by
  induction p generalizing n s with
  | ret a => rfl
  | call o k ih => exact ih _ (n + 1) _

theorem solo_bind_of_eq {p : Prog S α} {f : α → Prog S β} {n n' : Nat} {s s' : σ} {a : α}
    (h : p.solo M env n s = ⟨a, n', s'⟩) :
    (p.bind f).solo M env n s = (f a).solo M env n' s' := by
  rw [solo_bind, h]

theorem solo_attempt_of_eq {p : Prog S (Except E α)} {f : α → Prog S (Except E β)} {n n' : Nat}
    {s s' : σ} {a : α} (h : p.solo M env n s = ⟨.ok a, n', s'⟩) :
    (p.attempt f).solo M env n s = (f a).solo M env n' s' := solo_bind_of_eq M env h

theorem solo_attempt_of_error {p : Prog S (Except E α)} {f : α → Prog S (Except E β)}
    {n n' : Nat} {s s' : σ} {e : E} (h : p.solo M env n s = ⟨.error e, n', s'⟩) :
    (p.attempt f).solo M env n s = ⟨.error e, n', s'⟩ := solo_bind_of_eq M env h

theorem solo_attempt_error {p : Prog S (Except E α)} {f : α → Prog S (Except E β)} {n : Nat}
    {s : σ} {e : E} (h : (p.solo M env n s).answer = .error e) :
    ((p.attempt f).solo M env n s).answer = .error e := by
  rw [attempt, solo_bind, h]
  rfl

/-- What every allowed operation does to the state, a run of them does. -/
theorem Only.solo {P : S.Op → Prop} (Rel : σ → σ → Prop) (hrefl : ∀ s, Rel s s)
    (htrans : ∀ s t u, Rel s t → Rel t u → Rel s u)
    (hop : ∀ e o s, P o → Rel s (M.exec e o s).2) {p : Prog S α} (hp : p.Only P) (n : Nat)
    (s : σ) : Rel s (p.solo M env n s).state := by
  induction p generalizing n s with
  | ret a => exact hrefl s
  | call o k ih => exact htrans _ _ _ (hop (env n) o s hp.1) (ih _ (hp.2 _) (n + 1) _)

end Prog

/-- A solo run, preceded by a step of the others. -/
theorem Raced.solo (M : Machine S σ ε) (env : Nat → ε) {R : σ → σ → Prop} (hrefl : ∀ s, R s s)
    (p : Prog S α) {s t : σ} (n : Nat) (h : R s t) :
    Raced M R p s (p.solo M env n t).answer (p.solo M env n t).state := by
  induction p generalizing s t n with
  | ret a => exact .ret h
  | call o k ih => exact .call (env n) h (ih _ (n + 1) (hrefl _))

/-- What a contract says of the result, a solo run achieves, if what each operation leaves behind
lets the next one be admitted. -/
theorem Sat.solo {M : Machine S σ ε} (env : Nat → ε) (J : Option (Event S) → σ → Prop)
    {admits : ε → Option (Event S) → S.Op → σ → Prop} {R G : σ → σ → Prop} (hrefl : ∀ s, R s s)
    (hadmits : ∀ n last o s, J last s → admits (env n) last o s)
    (hexec : ∀ n o s, J (some ⟨o, (M.exec (env n) o s).1⟩) (M.exec (env n) o s).2)
    {Q : α → σ → Prop} {p : Prog S α} {last : Option (Event S)} {s : σ}
    (h : Sat M admits R G Q p last s) (hJ : J last s) (n : Nat) :
    Q (p.solo M env n s).answer (p.solo M env n s).state := by
  induction p generalizing last s n with
  | ret a => exact h s (hrefl s)
  | call o k ih =>
    obtain ⟨_, hk⟩ := h s (hrefl s) (env n) (hadmits n last o s hJ)
    exact ih _ hk (hexec n o s) (n + 1)

end Interleave
