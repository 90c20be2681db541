import Fafo.Wills

/-! A will that a client was told is armed: until when its row stays. -/
namespace Fafo.Wills

open Submission

/-- The arming's row is there, or its will has committed, or a later frame of its client has
replaced it. -/
def Safe (s : State) (arming : Frame) : Prop :=
  (∃ c payload, carried s.table c = some (payload, arming)) ∨ arming ∈ s.committed ∨
    ∃ frame, arming.Before frame ∧ (arming, frame) ∈ s.released

/-- Every will of which a client was told that it is armed is safe. -/
def Kept (s : State) : Prop := ∀ arming ∈ s.told, Safe s arming

/-- When a transaction comes to delete or to replace a row: a frame's finds one of an earlier frame
of its client, a close's the will that it took and that has not failed, and a sweep's the row that
it listed. -/
def Careful (s : State) : Move → Prop
  | .apply k => ∀ f, s.flight[k]? = some f →
    match f.stmt with
    | .arm c _ _ frame => ∀ payload arming, carried s.table c = some (payload, arming) →
      arming = frame ∨ arming.Before frame
    | .delete c (.disarm frame) => ∀ payload arming, carried s.table c = some (payload, arming) →
      arming.Before frame
    | .delete c (.close _ read fired) =>
      ∀ payload arming, carried s.table c = some (payload, arming) → arming = read ∧ fired = true
    | .delete c (.sweep read) =>
      ∀ payload arming, carried s.table c = some (payload, arming) → arming = read
    | _ => True
  | _ => True

/-- Only what was there before the start does not parse. -/
def Parses (x : Listed) : Prop := x.payload = .garbled → x.arming.number = 0

/-- What is known of a transaction and its result. -/
def Sent (s : State) : Stmt → Option Result → Prop
  | .arm _ _ _ frame, result => 0 < frame.number ∧ (result.isSome → Safe s frame)
  | .delete _ (.close _ read true), _ => read ∈ s.committed
  | .delete _ (.sweep read), _ => read.number = 0 ∨ read ∈ s.committed
  | .list _ _, some (.rows rows) => ∀ x ∈ rows, Parses x
  | .fire _ arming, some _ => arming ∈ s.committed
  | _, _ => True

def InHand : Job → Prop
  | .claiming _ _ _ row todo => Parses row ∧ ∀ x ∈ todo, Parses x
  | .firing _ _ _ _ todo | .consuming _ _ _ todo => ∀ x ∈ todo, Parses x
  | _ => True

structure Promise (s : State) : Prop where
  tracks : Tracks (Sent s) InHand s
  told : ∀ arming ∈ s.told, 0 < arming.number ∧ Safe s arming
  rows : ∀ c arming, carried s.table c = some (.garbled, arming) → arming.number = 0

theorem Promise.kept {s : State} (h : Promise s) : Kept s := fun arming hmem =>
  (h.told arming hmem).2

variable {s : State}

theorem Promise.setWill (h : Promise s) (c : Nat) (will : Option (Will × Frame)) :
    Promise (s.setWill c will) := ⟨h.tracks.congr rfl rfl rfl, h.told, h.rows⟩

theorem Promise.setArmed (h : Promise s) (n : Nat) (armed : List String) :
    Promise (s.setArmed n armed) :=
  ⟨h.tracks.congr rfl rfl rfl, h.told, h.rows⟩

theorem Promise.tick (h : Promise s) : Promise s.tick :=
  ⟨h.tracks.congr rfl rfl rfl, h.told, h.rows⟩

theorem Promise.issue (h : Promise s) {i n : Nat} {job : Job} {stmt : Stmt}
    (hsent : Sent s stmt none) (hjob : InHand job) (hawaits : job.Awaits stmt) :
    Promise (s.issue i n job stmt) := ⟨h.tracks.issue hsent hjob hawaits, h.told, h.rows⟩

theorem Promise.endTask (h : Promise s) (i : Nat) : Promise (s.endTask i) :=
  ⟨h.tracks.endTask trivial i, h.told, h.rows⟩

theorem record_committed (s : State) (stmt : Stmt) : s.committed ⊆ (s.record stmt).committed := by
  intro arming hmem
  unfold State.record
  dsimp only
  split
  · split <;> exact hmem
  · split <;> exact hmem
  · exact hmem
  · exact List.mem_cons_of_mem _ hmem
  · exact hmem

theorem record_released (s : State) (stmt : Stmt) : s.released ⊆ (s.record stmt).released := by
  intro pair hmem
  unfold State.record
  dsimp only
  split
  · split
    · exact List.mem_cons_of_mem _ hmem
    · exact hmem
  · split
    · exact List.mem_cons_of_mem _ hmem
    · exact hmem
  · exact hmem
  · exact hmem
  · exact hmem

theorem record_arm {c : String} {arming : Frame} {payload : Payload}
    (hrow : carried s.table c = some (payload, arming)) (deadline : Nat) (w : Will)
    (frame : Frame) :
    (arming, frame) ∈ (s.record (.arm c deadline w frame)).released := by
  simp [State.record, hrow]

theorem record_disarm {c : String} {arming : Frame} {payload : Payload}
    (hrow : carried s.table c = some (payload, arming)) (frame : Frame) :
    (arming, frame) ∈ (s.record (.delete c (.disarm frame))).released := by
  simp [State.record, hrow]

/-- An arming stays safe when a transaction takes effect. -/
theorem Safe.apply (h : Promise s) {k : Nat} (hcareful : Careful s (.apply k)) (arming : Frame)
    (hpos : 0 < arming.number) (hsafe : Safe s arming) : Safe (s.apply k) arming := by
  cases hf : s.flight[k]? with
  | none => simpa [State.apply, hf] using hsafe
  | some f =>
    have hcareful := hcareful f hf
    have hsent := h.tracks.flights f (List.mem_of_getElem? hf)
    rw [apply_eq hf]
    have hcommit : arming ∈ s.committed → arming ∈ (s.record f.stmt).committed :=
      fun hmem => record_committed s f.stmt hmem
    rcases hsafe with ⟨c, payload, hrow⟩ | hcommitted | ⟨frame, hbefore, hreleased⟩
    · have hexec := carried_exec s.table f.stmt c
      generalize f.stmt = stmt at hcareful hsent hcommit hexec ⊢
      cases stmt with
      | arm session deadline w frame =>
        dsimp only at hcareful hexec
        by_cases hc : c = session
        · subst hc
          rw [if_pos rfl] at hexec
          rcases hcareful payload arming hrow with rfl | hbefore
          · exact .inl ⟨c, .will w, hexec⟩
          · exact .inr (.inr ⟨frame, hbefore, record_arm hrow deadline w frame⟩)
        · exact .inl ⟨c, payload, by rw [hexec, if_neg hc, hrow]⟩
      | delete session deleter =>
        dsimp only at hexec
        by_cases hc : c = session
        · subst hc
          cases deleter with
          | disarm frame =>
            exact .inr (.inr ⟨frame, hcareful payload arming hrow, record_disarm hrow frame⟩)
          | close frame read fired =>
            obtain ⟨rfl, rfl⟩ := hcareful payload arming hrow
            exact .inr (.inl (hcommit hsent))
          | sweep read =>
            obtain rfl := hcareful payload arming hrow
            exact .inr (.inl (hcommit (hsent.resolve_left hpos.ne')))
        · exact .inl ⟨c, payload, by rw [hexec, if_neg hc, hrow]⟩
      | refresh => exact .inl ⟨c, payload, hexec.trans hrow⟩
      | list => exact .inl ⟨c, payload, hexec.trans hrow⟩
      | claim => exact .inl ⟨c, payload, hexec.trans hrow⟩
      | fire => exact .inl ⟨c, payload, hexec.trans hrow⟩
    · exact .inr (.inl (hcommit hcommitted))
    · exact .inr (.inr ⟨frame, hbefore, record_released s f.stmt hreleased⟩)

theorem Sent.mono {s' : State} (hcommitted : s.committed ⊆ s'.committed)
    (hsafe : ∀ arming, 0 < arming.number → Safe s arming → Safe s' arming) {stmt : Stmt}
    {result : Option Result} (h : Sent s stmt result) : Sent s' stmt result := by
  cases stmt with
  | arm => exact ⟨h.1, fun hr => hsafe _ h.1 (h.2 hr)⟩
  | delete c deleter =>
    cases deleter with
    | disarm => trivial
    | close frame read fired =>
      cases fired with
      | false => trivial
      | true => exact hcommitted h
    | sweep => exact h.imp_right fun hmem => hcommitted hmem
  | refresh => trivial
  | list =>
    cases result with
    | none => trivial
    | some r => cases r <;> exact h
  | claim => trivial
  | fire =>
    cases result with
    | none => trivial
    | some => exact hcommitted h

/-- Mark me offline. -/
def offline : Will := { ops := [⟨"me", "UPDATE me SET online = 0"⟩] }

/-- The will is armed, and its row listed and claimed by a sweep, which fires it and deletes it. -/
def orphaned : List Move :=
  [.frame 0 7 offline 0 true, .apply 0, .answer 0 0, .crash 0,
    .sweep 1 1 60001 60000, .apply 0, .answer 1 0, .apply 0, .answer 1 0, .apply 0, .answer 1 0,
    .apply 0]

/-- Two nodes that are not named yet have a connection 1 each, and one's will replaces
the other's. -/
example : (carried (Runs.run State.step (start ∅ (fun _ => {}) id fun _ => 1)
    [.frame 0 0 offline 0 true, .apply 0, .answer 0 0, .frame 1 1 offline 0 true, .apply 0]).table
    "boot-1").map Prod.snd = some ⟨1, 2⟩ := by decide

end Fafo.Wills
