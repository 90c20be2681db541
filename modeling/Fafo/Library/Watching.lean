import Fafo.Library.Interleave

/-! What a program comes to while an assertion about the shared state holds all along. -/
namespace Interleave

variable {S : Signature} {α β σ ε ι : Type}

section Under

variable (M : Machine S σ ε) (told : ε → S.Op → σ → Prop) (P : σ → Prop) (Keeps : σ → σ → Prop)

/-- If each of its answers comes from a state that meets the assertion, before the operation and
after it, and that keeps what it has seen before, then what the program comes to is good. -/
def Prog.Under (Good : α → Prop) : Prog S α → σ → Prop
  | .ret a, _ => Good a
  | .call o k, seen => ∀ e s, Keeps seen s → told e o s → P s → P (M.exec e o s).2 →
      (k (M.exec e o s).1).Under Good (M.exec e o s).2

variable {M told P Keeps}

theorem Prog.Under.mono {Good Good' : α → Prop} {p : Prog S α} {seen : σ}
    (h : p.Under M told P Keeps Good seen) (hgood : ∀ a, Good a → Good' a) :
    p.Under M told P Keeps Good' seen := by
  induction p generalizing seen with
  | ret a => exact hgood a h
  | call o k ih =>
    intro e s hkeeps htold hbefore hafter
    exact ih _ (h e s hkeeps htold hbefore hafter)

theorem Prog.Under.stable [IsTrans σ Keeps] {Good : α → Prop} {p : Prog S α} {seen s : σ}
    (h : p.Under M told P Keeps Good seen) (hs : Keeps seen s) : p.Under M told P Keeps Good s := by
  cases p with
  | ret a => exact h
  | call o k => exact fun e s' hs' => h e s' (Trans.trans hs hs')

theorem Prog.Under.bind [Std.Refl Keeps] [IsTrans σ Keeps]
    (hkeeps : ∀ e o s, Keeps s (M.exec e o s).2) {Good : α → Prop} {Good' : β → Prop}
    {p : Prog S α} {f : α → Prog S β} {seen : σ} (h : p.Under M told P Keeps Good seen)
    (hf : ∀ a s, Keeps seen s → Good a → (f a).Under M told P Keeps Good' s) :
    (p.bind f).Under M told P Keeps Good' seen := by
  induction p generalizing seen with
  | ret a => exact hf a seen (Std.Refl.refl seen) h
  | call o k ih =>
    intro e s hs htold hbefore hafter
    refine ih _ (h e s hs htold hbefore hafter) fun a s' hs' ha => hf a s' ?_ ha
    exact Trans.trans (Trans.trans hs (hkeeps e o s)) hs'

/-- An error is good for anything. -/
theorem Prog.Under.attempt [Std.Refl Keeps] [IsTrans σ Keeps]
    (hkeeps : ∀ e o s, Keeps s (M.exec e o s).2) {E : Type} {Good : α → Prop} {Good' : β → Prop}
    {p : Prog S (Except E α)} {f : α → Prog S (Except E β)} {seen : σ}
    (h : p.Under M told P Keeps (fun r => ∀ a, r = .ok a → Good a) seen)
    (hf : ∀ a s, Keeps seen s → Good a →
      (f a).Under M told P Keeps (fun r => ∀ b, r = .ok b → Good' b) s) :
    (p.attempt f).Under M told P Keeps (fun r => ∀ b, r = .ok b → Good' b) seen := by
  refine h.bind hkeeps fun r s hs hr => ?_
  cases r with
  | ok a => exact hf a s hs (hr a rfl)
  | error e =>
    intro b heq
    cases heq

/-- Nothing need be kept of what was seen. -/
def Forgets (_ _ : σ) : Prop := True

instance : Std.Refl (@Forgets σ) := ⟨fun _ => trivial⟩

instance : IsTrans σ (@Forgets σ) := ⟨fun _ _ _ _ _ => trivial⟩

variable [DecidableEq ι]

/-- The process has been told what it should be. -/
def Tells (told : ε → S.Op → σ → Prop) (i : ι) (c : Config S σ ι α) (j : ι) (e : ε) : Prop :=
  ∀ o k, j = i → (c.procs i).prog = .call o k → told e o c.shared

theorem Config.Throughout.first {Q : Config S σ ι α → Prop} {c : Config S σ ι α}
    {moves : List (ι × ε)} (h : c.Throughout M Q moves) : Q c := by
  cases moves with
  | nil => exact h
  | cons m moves => exact h.1

theorem Config.throughout_of_forall {Q : Config S σ ι α → Prop} {c : Config S σ ι α}
    {moves : List (ι × ε)} (h : ∀ d, Q d) : c.Throughout M Q moves := by
  induction moves generalizing c with
  | nil => exact h c
  | cons m moves ih => exact ⟨h c, ih⟩

theorem Config.Throughout.and {Q Q' : Config S σ ι α → Prop} {c : Config S σ ι α}
    {moves : List (ι × ε)} (h : c.Throughout M Q moves) (h' : c.Throughout M Q' moves) :
    c.Throughout M (fun d => Q d ∧ Q' d) moves := by
  induction moves generalizing c with
  | nil => exact ⟨h, h'⟩
  | cons m moves ih => exact ⟨⟨h.1, h'.1⟩, ih h.2 h'.2⟩

/-- Where the assertion holds all along a run, what a process has come to is good. -/
theorem Prog.Under.run [Std.Refl Keeps] [IsTrans σ Keeps]
    (hkeeps : ∀ e o s, Keeps s (M.exec e o s).2) {Good : α → Prop} {c : Config S σ ι α} {i : ι}
    {moves : List (ι × ε)} (h : (c.procs i).prog.Under M told P Keeps Good c.shared)
    (htold : c.Guarded M (Tells told i) moves)
    (hP : c.Throughout M (fun d => P d.shared) moves) :
    ((c.run M moves).procs i).prog.Under M told P Keeps Good (c.run M moves).shared := by
  induction moves generalizing c with
  | nil => exact h
  | cons m moves ih =>
    obtain ⟨htell, hrest⟩ := htold
    refine ih ?_ hrest hP.2
    have hshared : Keeps c.shared (c.step M m.1 m.2).shared := by
      rw [Config.step_shared]
      cases (c.procs m.1).prog with
      | ret a => exact Std.Refl.refl _
      | call o k => exact hkeeps m.2 o c.shared
    by_cases hm : m.1 = i
    · subst hm
      have hafter : P (c.step M m.1 m.2).shared := hP.2.first
      rw [Config.step_prog]
      rw [Config.step_shared] at hafter ⊢
      cases hp : (c.procs m.1).prog with
      | ret a =>
        rw [hp] at h
        exact h
      | call o k =>
        rw [hp] at h hafter
        exact h m.2 c.shared (Std.Refl.refl _) (htell o k rfl hp) hP.1 hafter
    · rw [Config.step_procs_ne M c fun heq => hm heq.symm]
      exact h.stable hshared

end Under

end Interleave
