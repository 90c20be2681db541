import Mathlib.Tactic.SplitIfs
import Fafo.Apply

/-! The statements of a call as SQLite is given them, one by one. -/
namespace Fafo.Apply

variable {O Q D R K : Type} [DecidableEq O]

/-- A statement that was run: whether SQLite accepted it, and the connection that it left. -/
structure Ran (O D : Type) where
  object : O
  accepted : Bool
  left : Conn D

/-- The statements up to the first that is refused. `admits` says which are run at all, and `auth`
which authorizer an object's connection is under. -/
def Sqlite.script (e : Sqlite Q D R (K × O)) (admits : Conn D → Q → Bool)
    (auth : O → Option (K × O)) : List (Op O Q) → Objects O D → List (Ran O D)
  | [], _ => []
  | op :: ops, conns =>
    match conns op.object with
    | none => []
    | some c =>
      if admits c op.sql then
        match e.run (auth op.object) op.sql c with
        | (.error _, left) => [⟨op.object, false, left⟩]
        | (.ok _, left) =>
          ⟨op.object, true, left⟩ ::
            e.script admits auth ops (Function.update conns op.object (some left))
      else []

/-- A request runs its statements under no authorizer, and only those that report to be
read-only. -/
def Sqlite.requests (e : Sqlite Q D R (K × O)) : List (Op O Q) → Objects O D → List (Ran O D) :=
  e.script (fun c sql => match e.readonly c sql with | .ok b => b | .error _ => false) fun _ => none

def Sqlite.writes (e : Sqlite Q D R (K × O)) (cap : Option K) :
    List (Op O Q) → Objects O D → List (Ran O D) :=
  e.script (fun _ _ => true) (authorizer cap)

/-- Each statement that leaves the object's connection other than `good` is followed by one that
leaves it so again. -/
def Redeemed (good : Conn D → Prop) (id : O) : List (Ran O D) → Prop
  | [] => True
  | ran :: rest =>
    (ran.object = id → ¬ good ran.left → ∃ later ∈ rest, later.object = id ∧ good later.left) ∧
      Redeemed good id rest

/-- The connections that the statements leave. -/
def leave (conns : Objects O D) (script : List (Ran O D)) : Objects O D :=
  script.foldl (fun conns ran => Function.update conns ran.object (some ran.left)) conns

theorem leave_cons (conns : Objects O D) (ran : Ran O D) (rest : List (Ran O D)) :
    leave conns (ran :: rest) =
      leave (Function.update conns ran.object (some ran.left)) rest := rfl

theorem leave_iff {good : Conn D → Prop} {id : O} {conns : Objects O D}
    {script : List (Ran O D)} : (∀ c, leave conns script id = some c → good c) ↔
      ((∀ c, conns id = some c → good c) ∨ ∃ ran ∈ script, ran.object = id ∧ good ran.left) ∧
        Redeemed good id script := by
  induction script generalizing conns with
  | nil => simp [leave, Redeemed]
  | cons ran rest ih =>
    rw [leave_cons, ih, Redeemed, List.exists_mem_cons_iff]
    by_cases hid : ran.object = id
    · rw [hid, Function.update_self]
      simp only [Option.some.injEq, forall_eq', true_and, forall_const]
      constructor
      · rintro ⟨hgood | hlater, hrest⟩
        · exact ⟨.inr (.inl hgood), fun hbad => absurd hgood hbad, hrest⟩
        · exact ⟨.inr (.inr hlater), fun _ => hlater, hrest⟩
      · rintro ⟨-, hlater, hrest⟩
        exact ⟨Classical.or_iff_not_imp_left.mpr hlater, hrest⟩
    · rw [Function.update_of_ne (Ne.symm hid)]
      simp [hid]

/-- The statements leave the object's connection good, if they find it so, exactly when each that
does not is made up for. -/
theorem leave_good_iff {good : Conn D → Prop} {id : O} {conns : Objects O D}
    {script : List (Ran O D)} (hgood : ∀ c, conns id = some c → good c) :
    (∀ c, leave conns script id = some c → good c) ↔ Redeemed good id script :=
  leave_iff.trans (and_iff_right (.inl hgood))

variable {e : Sqlite Q D R (K × O)}

omit [DecidableEq O] in
theorem eachOf_of_error {S X Y : Type} {f : X → S → Except ApiError Y × S} {x : X} {s s' : S}
    {err : ApiError} (h : f x s = (.error err, s')) (xs : List X) :
    eachOf f (x :: xs) s = (.error err, s') := by
  rw [eachOf, h]

omit [DecidableEq O] in
theorem eachOf_of_ok {S X Y : Type} {f : X → S → Except ApiError Y × S} {x : X} {s s' : S} {y : Y}
    (h : f x s = (.ok y, s')) (xs : List X) :
    (eachOf f (x :: xs) s).2 = (eachOf f xs s').2 ∧
      ((∃ ys, (eachOf f (x :: xs) s).1 = .ok ys) ↔ ∃ ys, (eachOf f xs s').1 = .ok ys) := by
  rw [eachOf, h]
  dsimp only
  rcases eachOf f xs s' with ⟨err | ys, after⟩
  · exact ⟨rfl, by simp⟩
  · exact ⟨rfl, iff_of_true ⟨_, rfl⟩ ⟨_, rfl⟩⟩

/-- One after the other, the statements are those of the script. -/
theorem eachOf_script {admits : Conn D → Q → Bool} {auth : O → Option (K × O)}
    {f : Op O Q → Conn D → Except ApiError R × Conn D}
    {g : Op O Q → Objects O D → Except ApiError R × Objects O D}
    (hg : ∀ op, g op = onConn (f op) op.object)
    (hout : ∀ op c, admits c op.sql = false → ∃ err, f op c = (.error err, c))
    (herror : ∀ op c msg left, admits c op.sql = true →
      e.run (auth op.object) op.sql c = (.error msg, left) → ∃ err, f op c = (.error err, left))
    (hok : ∀ op c r left, admits c op.sql = true →
      e.run (auth op.object) op.sql c = (.ok r, left) → f op c = (.ok r, left))
    (ops : List (Op O Q)) (conns : Objects O D) :
    (eachOf g ops conns).2 = leave conns (e.script admits auth ops conns) := by
  induction ops generalizing conns with
  | nil => rfl
  | cons op ops ih =>
    rw [Sqlite.script]
    cases hc : conns op.object with
    | none =>
      have hnone : g op conns = (.error (.internal "participant activated"), conns) := by
        rw [hg, onConn, hc]
      rw [eachOf_of_error hnone]
      rfl
    | some c =>
      have hsome : g op conns =
          ((f op c).1, Function.update conns op.object (some (f op c).2)) := by
        rw [hg, onConn, hc]
      dsimp only
      cases hadmits : admits c op.sql with
      | false =>
        obtain ⟨err, hf⟩ := hout op c hadmits
        rw [hf] at hsome
        rw [eachOf_of_error hsome]
        exact Function.update_eq_self_iff.mpr hc.symm
      | true =>
        rw [if_pos rfl]
        rcases hrun : e.run (auth op.object) op.sql c with ⟨msg | r, left⟩
        · obtain ⟨err, hf⟩ := herror op c msg left hadmits hrun
          rw [hf] at hsome
          rw [eachOf_of_error hsome]
          rfl
        · rw [hok op c r left hadmits hrun] at hsome
          rw [(eachOf_of_ok hsome ops).1, ih]
          rfl

theorem eachOf_queryOp (ops : List (Op O Q)) (conns : Objects O D) :
    (eachOf (queryOp e) ops conns).2 = leave conns (e.requests ops conns) := by
  refine eachOf_script (fun _ => rfl) (fun op c hout => ?_) (fun op c msg left hadmits hrun => ?_)
    (fun op c r left hadmits hrun => ?_) ops conns
  · cases hreadonly : e.readonly c op.sql with
    | error msg => exact ⟨_, rfl⟩
    | ok b =>
      rw [hreadonly] at hout
      obtain rfl : b = false := hout
      exact ⟨_, rfl⟩
  · cases hreadonly : e.readonly c op.sql with
    | error msg => simp [hreadonly] at hadmits
    | ok b =>
      rw [hreadonly] at hadmits
      obtain rfl : b = true := hadmits
      dsimp only
      rw [hrun]
      exact ⟨_, rfl⟩
  · cases hreadonly : e.readonly c op.sql with
    | error msg => simp [hreadonly] at hadmits
    | ok b =>
      rw [hreadonly] at hadmits
      obtain rfl : b = true := hadmits
      dsimp only
      rw [hrun]
      rfl

theorem eachOf_runOp (cap : Option K) (ops : List (Op O Q)) (conns : Objects O D) :
    (eachOf (runOp e cap) ops conns).2 = leave conns (e.writes cap ops conns) := by
  refine eachOf_script (fun _ => rfl) (fun op c hout => absurd hout (by decide))
    (fun op c msg left _ hrun => ?_) (fun op c r left _ hrun => ?_) ops conns
  · rw [hrun]
    exact ⟨_, rfl⟩
  · rw [hrun]
    rfl

end Fafo.Apply
