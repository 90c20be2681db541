import Mathlib.Data.Set.Basic
import Mathlib.Logic.Relation
import Fafo.ApplyAtomic
import Fafo.Sessions

/-! What a capability's writes can do to an object: the worker's gate over SQLite's authorizer. -/
namespace Fafo.Confinement

open Apply
open Sessions (Capability allows)

/-- The actions that SQLite asks its authorizer about. Of their arguments the gate reads none. -/
inductive AuthAction where
  | unknown | createIndex | createTable | createTempIndex | createTempTable | createTempTrigger
  | createTempView | createTrigger | createView | delete | dropIndex | dropTable | dropTempIndex
  | dropTempTable | dropTempTrigger | dropTempView | dropTrigger | dropView | insert | pragma
  | read | select | transaction | update | attach | detach | alterTable | reindex | analyze
  | createVtable | dropVtable | function | savepoint | recursive
  deriving DecidableEq, Repr

inductive Authorization where
  | allow
  | deny
  deriving DecidableEq, Repr

def grantOf (granted : Bool) : Authorization := if granted then .allow else .deny

def capGate (cap : Capability) (object : String) : AuthAction → Authorization
  | .insert => grantOf (allows cap object "insert")
  | .update => grantOf (allows cap object "update")
  | .delete => grantOf (allows cap object "delete")
  | .read => grantOf (["read", "insert", "update", "delete", "ddl"].any fun v =>
      allows cap object v)
  | .select | .function | .transaction | .savepoint | .recursive => .allow
  | .pragma | .attach | .detach => .deny
  -- Schema changes, and what the library does not know.
  | _ => grantOf (allows cap object "ddl")

/-- The verb that an action takes, if it is one that changes an object. -/
def AuthAction.verb : AuthAction → Option String
  | .insert => some "insert"
  | .update => some "update"
  | .delete => some "delete"
  | .read | .select | .function | .transaction | .savepoint | .recursive => none
  | .pragma | .attach | .detach => none
  | _ => some "ddl"

/-- What reads, or only opens and ends transactions. -/
def AuthAction.Passive : AuthAction → Prop
  | .read | .select | .function | .transaction | .savepoint | .recursive => True
  | _ => False

/-- A connection without an authorizer asks nobody. -/
def Permitted (a : Option (Capability × String)) (x : AuthAction) : Prop :=
  ∀ p ∈ a, capGate p.1 p.2 x = .allow

theorem grantOf_eq_allow {granted : Bool} : grantOf granted = .allow ↔ granted = true := by
  cases granted <;> decide

/-- What the gate lets through is harmless, or takes a verb that the capability has. -/
theorem passive_or_granted {cap : Capability} {object : String} {x : AuthAction}
    (h : capGate cap object x = .allow) :
    x.Passive ∨ ∃ v, x.verb = some v ∧ allows cap object v = true := by
  cases x with
  | read | select | function | transaction | savepoint | recursive => exact .inl trivial
  | pragma | attach | detach => cases h
  | _ => exact .inr ⟨_, rfl, grantOf_eq_allow.mp h⟩

variable {Q D R : Type}

/-- What is made of a content in the name of one of the actions. -/
def Change (changes : AuthAction → D → D → Prop) (asked : List AuthAction) (d d' : D) : Prop :=
  ∃ x ∈ asked, changes x d d'

/-- SQLite, as far as the gate relies on it. Preparing a statement asks about each of its actions,
those of its triggers included; one that is denied fails the statement, and a statement does only
what is done in the name of an action it has asked for. -/
structure Gated (e : Sqlite Q D R (Capability × String)) where
  asks : Conn D → Q → List AuthAction
  /-- What is done in the name of an action, which can be more than it says: `INSERT OR REPLACE`
  asks for an insert, and deletes the rows that are in its way. -/
  changes : AuthAction → D → D → Prop
  /-- What the connection can still come back to: what is committed, what the open transaction
  would commit, and its savepoints. These are part of `D`, so a transaction that stands where it
  began has none. -/
  held : Conn D → Set D
  db_held : ∀ c, c.db ∈ held c
  txn_held : ∀ c work, c.txn = some work → work ∈ held c
  held_closed : ∀ d, held ⟨d, none⟩ ⊆ {d}
  held_begun : ∀ d, held ⟨d, some d⟩ ⊆ {d}
  passive_changes_nothing : ∀ x d d', x.Passive → changes x d d' → d' = d
  denied : ∀ a c q, (∃ x ∈ asks c q, ¬ Permitted a x) → (e.run a q c).2 = c
  does_what_it_asks : ∀ a c q, ∀ d' ∈ held (e.run a q c).2,
    ∃ d ∈ held c, Relation.ReflTransGen (Change changes (asks c q)) d d'

variable {e : Sqlite Q D R (Capability × String)} (g : Gated e)

/-- A change that an action makes whose verb the capability has on the object. -/
def Gated.Granted (cap : Capability) (object : String) (d d' : D) : Prop :=
  ∃ x v, x.verb = some v ∧ allows cap object v = true ∧ g.changes x d d'

variable {g}

/-- A statement under the gate takes what the connection holds only where the capability lets it. -/
theorem Gated.run_granted (cap : Capability) (object : String) (q : Q) (c : Conn D) :
    ∀ d' ∈ g.held (e.run (some (cap, object)) q c).2,
      ∃ d ∈ g.held c, Relation.ReflTransGen (g.Granted cap object) d d' := by
  intro d' hd'
  by_cases hasked : ∀ x ∈ g.asks c q, Permitted (some (cap, object)) x
  · obtain ⟨d, hd, hreach⟩ := g.does_what_it_asks _ c q d' hd'
    refine ⟨d, hd, ?_⟩
    clear hd'
    induction hreach with
    | refl => exact .refl
    | tail _ hstep ih =>
      obtain ⟨x, hx, hchange⟩ := hstep
      rcases passive_or_granted (hasked x hx _ rfl) with hpassive | ⟨v, hverb, hallows⟩
      · rw [g.passive_changes_nothing _ _ _ hpassive hchange]
        exact ih
      · exact ih.tail ⟨x, v, hverb, hallows, hchange⟩
  · push Not at hasked
    rw [g.denied _ c q hasked] at hd'
    exact ⟨d', hd', .refl⟩

/-- Every live connection of an object meets what is asked of that object's. -/
def Holds (P : String → Conn D → Prop) (objects : Objects String D) : Prop :=
  ∀ id c, objects id = some c → P id c

variable {P : String → Conn D → Prop}

theorem Holds.update {objects : Objects String D} (h : Holds P objects) {id : String}
    {c : Option (Conn D)} (hc : ∀ c', c = some c' → P id c') :
    Holds P (Function.update objects id c) := by
  intro other c' hc'
  by_cases hother : other = id
  · subst hother
    rw [Function.update_self] at hc'
    exact hc c' hc'
  · rw [Function.update_of_ne hother] at hc'
    exact h other c' hc'

theorem Holds.onConn {X : Type} {f : Conn D → Except ApiError X × Conn D} {id : String}
    {objects : Objects String D} (h : Holds P objects) (hf : ∀ c, P id c → P id (f c).2) :
    Holds P (onConn f id objects).2 := by
  cases hc : objects id with
  | none =>
    rw [Apply.onConn, hc]
    exact h
  | some c =>
    rw [onConn_of_some hc]
    refine h.update fun c' hc' => ?_
    cases hc'
    exact hf c (h id c hc)

/-- What the parts of a write keep on each of its connections. -/
structure Kept (e : Sqlite Q D R (Capability × String)) (call : Apply.Call String Q Capability)
    (P : String → Conn D → Prop) : Prop where
  begins : ∀ id ∈ call.participants, ∀ c, P id c → P id (e.begin (authorizer call.cap id) c).2
  runs : ∀ id ∈ call.participants, ∀ q c, P id c → P id (e.run (authorizer call.cap id) q c).2
  commits : ∀ id ∈ call.participants, ∀ c, P id c → P id (e.commit c).2
  rolls : ∀ id ∈ call.participants, ∀ c, P id c → P id c.rollback

variable {call : Apply.Call String Q Capability}

theorem Kept.commitAll (h : Kept e call P) {ids : List String} (hids : ids ⊆ call.participants)
    {objects : Objects String D} (hobjects : Holds P objects) :
    Holds P (commitAll e ids objects).2 := by
  induction ids generalizing objects with
  | nil => exact hobjects
  | cons id ids ih =>
    rw [List.cons_subset] at hids
    have hcommit : Holds P (commitOn e id objects).2 := hobjects.onConn (h.commits id hids.1)
    rw [Apply.commitAll]
    rcases heq : commitOn e id objects with ⟨_ | _, objects'⟩ <;> rw [heq] at hcommit
    · exact hcommit
    · have hrest := ih hids.2 hcommit
      dsimp only
      rcases heq' : Apply.commitAll e ids objects' with ⟨_ | _, after⟩ <;> rw [heq'] at hrest <;>
        exact hrest

theorem Kept.rollbackAll (h : Kept e call P) {ids : List String} (hids : ids ⊆ call.participants)
    {objects : Objects String D} (hobjects : Holds P objects) :
    Holds P (rollbackAll ids objects) := by
  intro id c hc
  unfold Apply.rollbackAll at hc
  split_ifs at hc with hid
  · obtain ⟨c', hc', rfl⟩ := Option.map_eq_some_iff.mp hc
    exact h.rolls id (hids hid) c' (hobjects id c' hc')
  · exact hobjects id c hc

theorem Holds.revertClosure {w : Worker String D} (h : Holds P w.objects) (seed : List String) :
    Holds P (revertClosure w seed).objects := by
  intro id c hc
  rw [revertClosure_objects] at hc
  split_ifs at hc
  exact h id c hc

/-- What every part of a write keeps, the write keeps. -/
theorem Kept.apply {w : Worker String D} (h : Kept e call P) (hwrite : call.readOnly = false)
    (hobjects : Holds P w.objects) : Holds P (apply e w call).2.objects := by
  unfold Apply.apply
  cases call.participants.find? fun id => (w.objects id).isNone with
  | some missing => exact hobjects
  | none =>
    rw [hwrite]
    dsimp only
    rw [if_neg Bool.false_ne_true]
    unfold applyWrite
    have hbegan : Holds P (eachOf (beginOn e call.cap) call.participants w.objects).2 :=
      eachOf_keeps (fun id hid _ hs => hs.onConn (h.begins id hid)) hobjects
    rcases heq : eachOf (beginOn e call.cap) call.participants w.objects with ⟨_ | _, began⟩ <;>
      rw [heq] at hbegan
    · exact hbegan
    have hran : Holds P (eachOf (runOp e call.cap) call.ops began).2 :=
      eachOf_keeps (fun op hop _ hs =>
        hs.onConn (h.runs op.object (call.declared op hop) op.sql)) hbegan
    dsimp only
    rcases heq' : eachOf (runOp e call.cap) call.ops began with ⟨_ | _, ran⟩ <;>
      rw [heq'] at hran
    · exact h.rollbackAll (List.Subset.refl _) hran
    have hcommitted := h.commitAll (List.Subset.refl _) hran
    dsimp only
    rcases heq'' : Apply.commitAll e call.participants ran with ⟨_ | ⟨failedAt, err⟩, after⟩ <;>
      rw [heq''] at hcommitted
    · exact hcommitted
    · exact Holds.revertClosure (h.rollbackAll (List.drop_subset ..) hcommitted) _

/-- A write with the object among its participants was made under the capability. -/
def UsedOn (steps : List (Step String Q D Capability)) (object : String) (cap : Capability) :
    Prop :=
  ∃ call, .call call ∈ steps ∧ object ∈ call.participants ∧ call.cap = some cap

/-- A change that one of the capabilities used on the object grants. -/
def Gated.GrantedIn (g : Gated e) (steps : List (Step String Q D Capability)) (object : String)
    (d d' : D) : Prop :=
  ∃ cap, UsedOn steps object cap ∧ g.Granted cap object d d'

/-- All that the connection holds has come from the image of the object's last activation, by
changes granted since. -/
def Descends (g : Gated e) (steps : List (Step String Q D Capability)) (id : String)
    (c : Conn D) : Prop :=
  ∃ before image since, steps = before ++ .activate id image :: since ∧
    (∀ later, .activate id later ∉ since) ∧
    ∀ d ∈ g.held c, Relation.ReflTransGen (g.GrantedIn since id) image d

variable {steps : List (Step String Q D Capability)}

/-- A step later, what is held may have taken another granted change. -/
theorem Descends.of_held {id : String} {c c' : Conn D} (h : Descends g steps id c)
    {step : Step String Q D Capability} (hstep : ∀ later, step ≠ .activate id later)
    (hheld : ∀ d' ∈ g.held c', ∃ d ∈ g.held c,
      Relation.ReflTransGen (g.GrantedIn [step] id) d d') : Descends g (steps ++ [step]) id c' := by
  obtain ⟨before, image, since, rfl, hlast, hreach⟩ := h
  have hmono : ∀ part ⊆ since ++ [step],
      g.GrantedIn part id ≤ g.GrantedIn (since ++ [step]) id := by
    rintro part hpart d d' ⟨cap, ⟨call, hcall, hused⟩, hchange⟩
    exact ⟨cap, ⟨call, hpart hcall, hused⟩, hchange⟩
  refine ⟨before, image, since ++ [step], by simp, fun later hlater => ?_, fun d' hd' => ?_⟩
  · rcases List.mem_append.mp hlater with hsince | hnew
    · exact hlast later hsince
    · exact hstep later (List.mem_singleton.mp hnew).symm
  · obtain ⟨d, hd, hchanges⟩ := hheld d' hd'
    exact (Relation.ReflTransGen.mono (hmono _ (List.subset_append_left ..)) _ _
      (hreach d hd)).trans
      (Relation.ReflTransGen.mono (hmono _ (List.subset_append_right ..)) _ _ hchanges)

theorem Descends.of_subset {id : String} {c c' : Conn D} (h : Descends g steps id c)
    {step : Step String Q D Capability} (hstep : ∀ later, step ≠ .activate id later)
    (hheld : g.held c' ⊆ g.held c) : Descends g (steps ++ [step]) id c' :=
  h.of_held hstep fun d hd => ⟨d, hheld hd, .refl⟩

theorem held_begin (a : Option (Capability × String)) (c : Conn D) :
    g.held (e.begin a c).2 ⊆ g.held c := by
  obtain ⟨db, txn⟩ := c
  unfold Sqlite.begin
  cases txn with
  | some work => exact subset_rfl
  | none =>
    dsimp only
    cases e.begins a ⟨db, none⟩ with
    | error msg => exact subset_rfl
    | ok _ =>
      intro d hd
      rw [g.held_begun db hd]
      exact g.db_held ⟨db, none⟩

theorem held_commit (c : Conn D) : g.held (e.commit c).2 ⊆ g.held c := by
  obtain ⟨db, txn⟩ := c
  unfold Sqlite.commit
  cases txn with
  | none => exact subset_rfl
  | some work =>
    dsimp only
    cases e.commits work with
    | error msg => exact subset_rfl
    | ok _ =>
      intro d hd
      rw [g.held_closed work hd]
      exact g.txn_held ⟨db, some work⟩ work rfl

theorem held_rollback (c : Conn D) : g.held c.rollback ⊆ g.held c := by
  intro d hd
  rw [g.held_closed c.db hd]
  exact g.db_held c

/-- What the connection holds, it held before or can have by granted changes of the call. -/
def Reached (g : Gated e) (call : Apply.Call String Q Capability) (before : Objects String D)
    (id : String) (c : Conn D) : Prop :=
  ∃ b, before id = some b ∧ ∀ d' ∈ g.held c, ∃ d ∈ g.held b,
    Relation.ReflTransGen (g.GrantedIn [.call call] id) d d'

theorem Reached.of_held {before : Objects String D} {id : String} {c c' : Conn D}
    (h : Reached g call before id c)
    (hheld : ∀ d' ∈ g.held c', ∃ d ∈ g.held c,
      Relation.ReflTransGen (g.GrantedIn [.call call] id) d d') : Reached g call before id c' := by
  obtain ⟨b, hb, hreach⟩ := h
  refine ⟨b, hb, fun d' hd' => ?_⟩
  obtain ⟨d, hd, hchanges⟩ := hheld d' hd'
  obtain ⟨d₀, hd₀, hfirst⟩ := hreach d hd
  exact ⟨d₀, hd₀, hfirst.trans hchanges⟩

theorem Reached.of_subset {before : Objects String D} {id : String} {c c' : Conn D}
    (h : Reached g call before id c) (hheld : g.held c' ⊆ g.held c) :
    Reached g call before id c' :=
  h.of_held fun d hd => ⟨d, hheld hd, .refl⟩

/-- One write of a capability holder. -/
theorem kept_reached {cap : Capability} (hcap : call.cap = some cap)
    (before : Objects String D) : Kept e call (Reached g call before) where
  begins _ _ c hc := hc.of_subset (held_begin _ c)
  runs id hid q c hc := by
    refine hc.of_held fun d' hd' => ?_
    rw [hcap] at hd'
    obtain ⟨d, hd, hreach⟩ := g.run_granted cap id q c d' hd'
    have hgranted : g.Granted cap id ≤ g.GrantedIn [.call call] id := by
      intro d d' h
      exact ⟨cap, ⟨call, List.mem_singleton_self _, hid, hcap⟩, h⟩
    exact ⟨d, hd, Relation.ReflTransGen.mono hgranted _ _ hreach⟩
  commits _ _ c hc := hc.of_subset (held_commit c)
  rolls _ _ c hc := hc.of_subset (held_rollback c)

/-- Every call is a write under a capability. -/
def OnlyCapabilities (steps : List (Step String Q D Capability)) : Prop :=
  ∀ call, .call call ∈ steps → call.readOnly = false ∧ call.cap.isSome

theorem descends_step {w : Worker String D} (hw : Holds (Descends g steps) w.objects)
    {step : Step String Q D Capability} (honly : OnlyCapabilities [step]) :
    Holds (Descends g (steps ++ [step])) (w.step e step).objects := by
  intro id c hc
  cases step with
  | call call =>
    obtain ⟨hwrite, hcap⟩ := honly call (List.mem_singleton_self _)
    obtain ⟨cap, hcap⟩ := Option.isSome_iff_exists.mp hcap
    have hbefore : Holds (Reached g call w.objects) w.objects :=
      fun id c hc => ⟨c, hc, fun d hd => ⟨d, hd, .refl⟩⟩
    obtain ⟨b, hb, hreach⟩ := (kept_reached hcap w.objects).apply hwrite hbefore id c hc
    exact (hw id b hb).of_held (fun _ h => by cases h) hreach
  | activate other image =>
    by_cases hid : id = other
    · subst hid
      change Function.update w.objects id (some ⟨image, none⟩) id = some c at hc
      rw [Function.update_self] at hc
      cases hc
      refine ⟨steps, image, [], rfl, fun _ h => (by cases h), fun d hd => ?_⟩
      rw [g.held_closed image hd]
    · change Function.update w.objects other (some ⟨image, none⟩) id = some c at hc
      rw [Function.update_of_ne hid] at hc
      refine (hw id c hc).of_subset (fun _ h => ?_) subset_rfl
      cases h
      exact hid rfl
  | purge other =>
    by_cases hid : id = other
    · subst hid
      change Function.update w.objects id none id = some c at hc
      rw [Function.update_self] at hc
      cases hc
    · change Function.update w.objects other none id = some c at hc
      rw [Function.update_of_ne hid] at hc
      exact (hw id c hc).of_subset (fun _ h => by cases h) subset_rfl
  | pending txns => exact (hw id c hc).of_subset (fun _ h => by cases h) subset_rfl

theorem descends_run (honly : OnlyCapabilities steps) :
    Holds (Descends g steps) (steps.foldl (Worker.step e) .start).objects := by
  induction steps using List.reverseRecOn with
  | nil =>
    intro id c hc
    cases hc
  | append_singleton steps step ih =>
    rw [List.foldl_concat]
    refine descends_step (ih fun call hcall => honly call (List.mem_append_left _ hcall)) ?_
    exact fun call hcall => honly call (List.mem_append_right _ hcall)

/-- Whatever statements the holders of capabilities send a worker, transaction control included:
what is committed on an object has come from the image of its last activation, by changes made in
the name of actions whose verbs a capability used on the object since grants on it. -/
theorem writes_confined (g : Gated e) (steps : List (Step String Q D Capability))
    (honly : OnlyCapabilities steps) (id : String) (c : Conn D)
    (hc : (steps.foldl (Worker.step e) .start).objects id = some c) :
    ∃ before image since, steps = before ++ .activate id image :: since ∧
      (∀ later, .activate id later ∉ since) ∧
      Relation.ReflTransGen (g.GrantedIn since id) image c.db := by
  obtain ⟨before, image, since, hsteps, hlast, hreach⟩ := descends_run honly id c hc
  exact ⟨before, image, since, hsteps, hlast, hreach c.db (g.db_held c)⟩

/-- A row, by its key. -/
abbrev Row := Nat × Nat

/-- A few statements, on a database that is a list of rows. -/
inductive Sql where
  | commit
  | insert (row : Row)
  | insertOrReplace (row : Row)
  | clear
  deriving DecidableEq

def Sql.asks : Sql → List AuthAction
  | commit => [.transaction]
  | insert _ | insertOrReplace _ => [.insert]
  | clear => [.read, .delete]

def Sql.write (c : Conn (List Row)) (f : List Row → List Row) : Conn (List Row) :=
  match c.txn with
  | none => { c with db := f c.db }
  | some work => { c with txn := some (f work) }

/-- The rows with another key stay. -/
def replaced (row : Row) (rows : List Row) : List Row :=
  rows.filter (fun r => decide (r.1 ≠ row.1)) ++ [row]

/-- The rows that the connection sees. -/
def seen (c : Conn (List Row)) : List Row := c.txn.getD c.db

def Sql.run : Sql → Conn (List Row) → Except String Unit × Conn (List Row)
  | commit, ⟨_, some work⟩ => (.ok (), ⟨work, none⟩)
  | commit, c => (.error "cannot commit - no transaction is active", c)
  | insert row, c =>
    if (seen c).any fun r => decide (r.1 = row.1) then (.error "UNIQUE constraint failed", c)
    else (.ok (), write c fun rows => rows ++ [row])
  | insertOrReplace row, c => (.ok (), write c (replaced row))
  | clear, c => (.ok (), write c fun _ => [])

def Sql.refused (a : Option (Capability × String)) (sql : Sql) : Bool :=
  a.any fun p => sql.asks.any fun x => capGate p.1 p.2 x = .deny

def rows : Sqlite Sql (List Row) Unit (Capability × String) where
  readonly _ sql := .ok (decide (sql = .commit))
  run a sql c := if sql.refused a then (.error "not authorized", c) else sql.run c
  begins _ _ := .ok ()
  commits _ := .ok ()
  changeCounter db := some db.length
  readonly_writes_nothing := by
    rintro ⟨db, txn⟩ sql a hreadonly hpristine
    have hsql : sql = .commit := by simpa using hreadonly
    subst hsql
    obtain rfl | rfl : txn = none ∨ txn = some db := hpristine <;>
      split <;> simp [Sql.run, Conn.Pristine]

def Sql.changes : AuthAction → List Row → List Row → Prop
  | .insert, d, d' => ∃ row, d' = d ++ [row] ∨ d' = replaced row d
  | .delete, _, d' => d' = []
  | _, _, _ => False

def rowsHeld (c : Conn (List Row)) : Set (List Row) := {d | d = c.db ∨ c.txn = some d}

theorem held_write (c : Conn (List Row)) (f : List Row → List Row) :
    ∀ d' ∈ rowsHeld (Sql.write c f), d' ∈ rowsHeld c ∨ ∃ d ∈ rowsHeld c, d' = f d := by
  obtain ⟨db, txn⟩ := c
  intro d' hd'
  cases txn with
  | none =>
    rcases hd' with rfl | hnone
    · exact .inr ⟨db, .inl rfl, rfl⟩
    · cases hnone
  | some work =>
    rcases hd' with rfl | hwork
    · exact .inl (.inl rfl)
    · cases hwork
      exact .inr ⟨work, .inr rfl, rfl⟩

theorem held_run (sql : Sql) (c : Conn (List Row)) :
    ∀ d' ∈ rowsHeld (sql.run c).2,
      d' ∈ rowsHeld c ∨ ∃ d ∈ rowsHeld c, Change Sql.changes sql.asks d d' := by
  intro d' hd'
  cases sql with
  | commit =>
    obtain ⟨db, txn⟩ := c
    cases txn with
    | none => exact .inl hd'
    | some work =>
      rcases hd' with rfl | hnone
      · exact .inl (.inr rfl)
      · cases hnone
  | insert row =>
    rw [Sql.run] at hd'
    split_ifs at hd'
    · exact .inl hd'
    · rcases held_write c _ d' hd' with hsame | ⟨d, hd, hchange⟩
      · exact .inl hsame
      · exact .inr ⟨d, hd, .insert, List.mem_cons_self, row, .inl hchange⟩
  | insertOrReplace row =>
    rcases held_write c _ d' hd' with hsame | ⟨d, hd, hchange⟩
    · exact .inl hsame
    · exact .inr ⟨d, hd, .insert, List.mem_cons_self, row, .inr hchange⟩
  | clear =>
    rcases held_write c _ d' hd' with hsame | ⟨d, hd, hchange⟩
    · exact .inl hsame
    · exact .inr ⟨d, hd, .delete, by simp [Sql.asks], hchange⟩

def rowsGated : Gated rows where
  asks _ sql := sql.asks
  changes := Sql.changes
  held := rowsHeld
  db_held _ := .inl rfl
  txn_held _ _ h := .inr h
  held_closed d d' h := by
    rcases h with rfl | hnone
    · rfl
    · cases hnone
  held_begun d d' h := by
    rcases h with rfl | hsame
    · rfl
    · cases hsame
      rfl
  passive_changes_nothing x d d' hpassive hchange := by
    cases x with
    | read | select | function | transaction | savepoint | recursive => cases hchange
    | _ => cases hpassive
  denied a c sql hdenied := by
    obtain ⟨x, hx, hnot⟩ := hdenied
    have hrefused : sql.refused a = true := by
      unfold Permitted at hnot
      push Not at hnot
      obtain ⟨p, hp, hgate⟩ := hnot
      have hdeny : capGate p.1 p.2 x = .deny := by
        cases hgate' : capGate p.1 p.2 x with
        | allow => exact absurd hgate' hgate
        | deny => rfl
      simp only [Sql.refused, Option.mem_def.mp hp, Option.any_some, List.any_eq_true,
        decide_eq_true_eq]
      exact ⟨x, hx, hdeny⟩
    simp [rows, hrefused]
  does_what_it_asks a c sql d' hd' := by
    by_cases hrefused : sql.refused a = true
    · have hsame : (rows.run a sql c).2 = c := by simp [rows, hrefused]
      rw [hsame] at hd'
      exact ⟨d', hd', .refl⟩
    · have hrun : (rows.run a sql c).2 = (sql.run c).2 := by simp [rows, hrefused]
      rw [hrun] at hd'
      rcases held_run sql c d' hd' with hsame | ⟨d, hd, hchange⟩
      · exact ⟨d', hsame, .refl⟩
      · exact ⟨d, hd, .single hchange⟩

def appender : Capability := ⟨[⟨"log-*", ["insert"]⟩], 0, none⟩

def write (sql : List Sql) : Apply.Call String Sql Capability :=
  { participants := ["log-7"], ops := sql.map (⟨"log-7", ·⟩), readOnly := false
    cap := some appender
    nodup := by decide
    declared := by
      intro op hop
      obtain ⟨_, _, rfl⟩ := List.mem_map.mp hop
      exact List.mem_singleton_self _ }

/-- A row is replaced under a capability for inserts, which ends its transaction early; then it
tries to clear the log. -/
def replaceThenClear : List (Step String Sql (List Row) Capability) :=
  [.activate "log-7" [(1, 10)], .call (write [.insertOrReplace (1, 11), .commit]),
    .call (write [.insert (2, 20), .clear])]

theorem writes_confined_appender :
    (replaceThenClear.foldl (Worker.step rows) .start).objects "log-7" = some ⟨[(1, 11)], none⟩ ∧
      ∃ before image since, replaceThenClear = before ++ .activate "log-7" image :: since ∧
        (∀ later, .activate "log-7" later ∉ since) ∧
        Relation.ReflTransGen (rowsGated.GrantedIn since "log-7") image [(1, 11)] := by
  have hrun : (replaceThenClear.foldl (Worker.step rows) .start).objects "log-7" =
      some ⟨[(1, 11)], none⟩ := by decide +kernel
  have honly : OnlyCapabilities replaceThenClear := by
    intro call hcall
    simp only [replaceThenClear, List.mem_cons, Step.call.injEq, reduceCtorEq, false_or,
      List.not_mem_nil, or_false] at hcall
    rcases hcall with rfl | rfl <;> exact ⟨rfl, rfl⟩
  exact ⟨hrun, writes_confined rowsGated replaceThenClear honly "log-7" _ hrun⟩

end Fafo.Confinement
