import Fafo.OpenFiles
import Fafo.Library.Runs

/-! No open database is deleted: what each message makes live or cold, and what it records of it. -/
namespace Fafo

/-- The call does not demote the file, or forget it. -/
def DiskCall.Spares {π : Type} (path : π) : DiskCall π → Prop
  | .setCache p _ _ => p ≠ path
  | .remove p => p ≠ path
  | _ => True

namespace DiskLedger

variable {π : Type} [DecidableEq π] {l : DiskLedger π} {path : π}

theorem isLive_iff : l.IsLive path ↔ ∃ e, l.files.lookup path = some e ∧ e.state = .live :=
  Option.map_eq_some_iff

theorem isLive_setLive (l : DiskLedger π) (path : π) (bytes worker : Nat) :
    (l.setLive path bytes worker).IsLive path := by
  refine isLive_iff.mpr ⟨⟨bytes, .live, worker, l.seq + 1⟩, ?_, rfl⟩
  rw [setLive, lookup_upsert, if_pos rfl]

theorem IsLive.call (h : l.IsLive path) {c : DiskCall π} (hc : c.Spares path) :
    (l.call c).IsLive path := by
  obtain ⟨entry, hentry, hstate⟩ := isLive_iff.mp h
  cases c with
  | setLive p bytes worker =>
    by_cases hp : path = p
    · rw [hp]
      exact isLive_setLive l p bytes worker
    · refine isLive_iff.mpr ⟨entry, ?_, hstate⟩
      rw [DiskLedger.call, setLive, lookup_upsert, if_neg hp, hentry]
  | setCache p len worker =>
    have hne : path ≠ p := fun heq => hc heq.symm
    refine isLive_iff.mpr ⟨entry, ?_, hstate⟩
    cases len with
    | none => rw [DiskLedger.call, setCache, lookup_remove, if_neg hne, hentry]
    | some bytes => rw [DiskLedger.call, setCache, lookup_upsert, if_neg hne, hentry]
  | touch p bytes =>
    by_cases hp : path = p
    · subst hp
      refine isLive_iff.mpr ⟨{ entry with bytes, touched := l.seq + 1 }, ?_, hstate⟩
      rw [DiskLedger.call, lookup_touch, if_pos rfl, hentry]
      rfl
    · refine isLive_iff.mpr ⟨entry, ?_, hstate⟩
      rw [DiskLedger.call, lookup_touch, if_neg hp, hentry]
  | remove p =>
    refine isLive_iff.mpr ⟨entry, ?_, hstate⟩
    rw [DiskLedger.call, lookup_remove, if_neg fun heq => hc heq.symm, hentry]
  | enforce => exact isLive_iff.mpr ⟨entry, sweep_spares hentry hstate, hstate⟩

theorem IsLive.notMem_unlinks (h : l.IsLive path) (c : DiskCall π) : path ∉ l.unlinks c := by
  cases c with
  | enforce =>
    intro hin
    obtain ⟨f, hf, rfl⟩ := List.mem_map.mp hin
    obtain ⟨hlookup, hcache⟩ := (sweep_swept _ l).cached f hf
    obtain ⟨entry, hentry, hstate⟩ := isLive_iff.mp h
    rw [hlookup] at hentry
    cases hentry
    rw [hcache] at hstate
    cases hstate
  | setLive | setCache | touch | remove => exact List.not_mem_nil

theorem serve_cons (c : DiskCall π) (calls : List (DiskCall π)) (l : DiskLedger π) :
    l.serve (c :: calls) =
      (((l.call c).serve calls).1, l.unlinks c ++ ((l.call c).serve calls).2) := by
  have hall : ∀ (calls : List (DiskCall π)) (l : DiskLedger π) (before : List π),
      calls.foldl (fun acc c => (acc.1.call c, acc.2 ++ acc.1.unlinks c)) (l, before) =
        ((l.serve calls).1, before ++ (l.serve calls).2) := by
    intro calls
    induction calls with
    | nil =>
      intro l before
      simp [serve]
    | cons c calls ih =>
      intro l before
      have hserve : l.serve (c :: calls) = calls.foldl
          (fun acc c => (acc.1.call c, acc.2 ++ acc.1.unlinks c))
          (l.call c, [] ++ l.unlinks c) := rfl
      rw [hserve, List.foldl_cons, ih, ih]
      simp
  exact hall calls (l.call c) (l.unlinks c)

/-- Calls that spare a live file leave it live, and do not unlink it. -/
theorem IsLive.serve (h : l.IsLive path) {calls : List (DiskCall π)}
    (hcalls : ∀ c ∈ calls, c.Spares path) :
    (l.serve calls).1.IsLive path ∧ path ∉ (l.serve calls).2 := by
  induction calls generalizing l with
  | nil => exact ⟨h, List.not_mem_nil⟩
  | cons c calls ih =>
    obtain ⟨hc, hcalls⟩ := List.forall_mem_cons.mp hcalls
    obtain ⟨hlive, hout⟩ := ih (h.call hc) hcalls
    rw [serve_cons]
    refine ⟨hlive, fun hin => ?_⟩
    rcases List.mem_append.mp hin with hin | hin
    · exact h.notMem_unlinks c hin
    · exact hout hin

/-- A file that is registered as live stays so. -/
theorem serve_setLive {bytes worker : Nat} {calls : List (DiskCall π)}
    (hcalls : ∀ c ∈ calls, c.Spares path) :
    (l.serve (.setLive path bytes worker :: calls)).1.IsLive path ∧
      path ∉ (l.serve (.setLive path bytes worker :: calls)).2 := by
  rw [serve_cons]
  exact (isLive_setLive l path bytes worker).serve hcalls

end DiskLedger

namespace Polls

variable {ι Img Sql Row : Type} [LinearOrder ι] {site : Site ι Img Sql Row} {e : Env ι}
variable {s s' s'' : State ι Img Sql Row} {t : Txn ι Sql}

/-- Nothing becomes live. -/
def Shuts (s s' : State ι Img Sql Row) : Prop := ∀ o, (s'.live o).isSome → (s.live o).isSome

section

omit [LinearOrder ι]

theorem Shuts.trans (h : Shuts s s') (h' : Shuts s' s'') : Shuts s s'' :=
  fun o ho => h o (h' o ho)

theorem Shuts.of_eq (h : s'.live = s.live) : Shuts s s' := fun o ho => by rwa [h] at ho

theorem Talks.shuts (h : Talks s s') : Shuts s s' := .of_eq h.live

theorem Hears.shuts (h : Hears site e s s') : Shuts s s' := by
  intro o ho
  rcases h.chills o with ⟨hsame, -⟩ | hnone
  · rwa [hsame] at ho
  · rw [hnone] at ho
    cases ho

end

theorem shuts_revertClosure (seed : List ι) : Shuts s (s.revertClosure seed) := by
  intro o ho
  obtain ⟨image, himage⟩ := Option.isSome_iff_exists.mp ho
  rw [(live_revertClosure himage).2]
  rfl

/-- A clean object has fallen behind what a read of the log comes to. -/
def Stale (e : Env ι) (s : State ι Img Sql Row) (o : ι) : Prop :=
  s.boats.unshipped o = false ∧
    ∃ missed, e.folds o = some missed ∧ (s.logSeq o).getD 0 < s.readSeq o missed

/-- What is not one of these objects is as it was, and neither is any of them unless it is stale. -/
structure Refolds (e : Env ι) (objects : List ι) (s s' : State ι Img Sql Row) : Prop where
  boats : s'.boats = s.boats
  committed : s'.committed = s.committed
  refolded : ∀ o, (s'.live o = s.live o ∧ s'.logSeq o = s.logSeq o) ∨ o ∈ objects ∧ Stale e s o

theorem Talks.refolds (h : Talks s s') : Refolds e [] s s' :=
  ⟨h.boats, h.committed, fun o => .inl ⟨by rw [h.live], by rw [h.logSeq]⟩⟩

theorem Refolds.trans {objects objects' : List ι} (h : Refolds e objects s s')
    (h' : Refolds e objects' s' s'') : Refolds e (objects ++ objects') s s'' where
  boats := h'.boats.trans h.boats
  committed := h'.committed.trans h.committed
  refolded o := by
    rcases h.refolded o with ⟨hlive, hseq⟩ | ⟨hin, hstale⟩
    · rcases h'.refolded o with ⟨hlive', hseq'⟩ | ⟨hin, hclean, missed, hread, hbehind⟩
      · exact .inl ⟨hlive'.trans hlive, hseq'.trans hseq⟩
      · refine .inr ⟨List.mem_append_right _ hin, ?_, missed, hread, ?_⟩
        · rwa [h.boats] at hclean
        · rwa [hseq, State.readSeq, State.committedSeq, h.committed] at hbehind
    · exact .inr ⟨List.mem_append_left _ hin, hstale⟩

theorem refolds_foldl {f : State ι Img Sql Row → ι → State ι Img Sql Row} (objects : List ι)
    (s : State ι Img Sql Row) (hf : ∀ s' : State ι Img Sql Row, s'.boats = s.boats →
      ∀ o ∈ objects, Refolds e [o] s' (f s' o)) : Refolds e objects s (objects.foldl f s) := by
  induction objects generalizing s with
  | nil => exact (Talks.refl s).refolds
  | cons o objects ih =>
    have hfirst := hf s rfl o List.mem_cons_self
    refine hfirst.trans (ih (f s o) fun s' hboats o' ho' => ?_)
    exact hf s' (hboats.trans hfirst.boats) o' (List.mem_cons_of_mem _ ho')

/-- A re-fold of a stale object. -/
theorem refolds_refold {o : ι} (hstale : Stale e s o) (missed : Nat) :
    Refolds e [o] s (s.refold site o missed) := by
  refine ⟨rfl, rfl, fun o' => ?_⟩
  by_cases ho : o' = o
  · subst ho
    exact .inr ⟨List.mem_singleton_self o', hstale⟩
  · exact .inl ⟨Function.update_of_ne ho _ _, Function.update_of_ne ho _ _⟩

theorem refolds_refreshIfStale (o : ι) : Refolds e [o] s (s.refreshIfStale site e o).2 := by
  obtain heq | ⟨missed, hread, hclean, hbehind, heq⟩ := refreshIfStale_cases site e s o
  · rw [heq]
    exact ⟨rfl, rfl, fun _ => .inl ⟨rfl, rfl⟩⟩
  · rw [heq]
    exact refolds_refold ⟨hclean, missed, hread, hbehind⟩ missed

theorem shuts_refoldCleanBase (o : ι) : Shuts s (s.refoldCleanBase site e o) := by
  obtain heq | ⟨missed, -, -, hlive, heq⟩ := refoldCleanBase_cases site e s o
  · rw [heq]
    exact fun _ h => h
  · rw [heq]
    intro o' ho'
    by_cases ho : o' = o
    · rwa [ho]
    · have hsame : (s.refold site o missed).live o' = s.live o' := Function.update_of_ne ho _ _
      rwa [hsame] at ho'

/-- What a transaction's catching up makes live was stale, and is there to be read. -/
theorem opened_catchUp {o : ι} (h : ((s.catchUp site e t).live o).isSome) :
    (s.live o).isSome ∨ (site.logPrimary = true ∧ t.readOnly = true) ∧ o ∈ t.participants ∧
      Stale e s o := by
  unfold State.catchUp at h
  by_cases hlog : site.logPrimary = true
  · rw [if_pos hlog] at h
    cases hread : t.readOnly with
    | true =>
      simp only [hread, if_true] at h
      have hrefolds : Refolds e t.participants s
          (t.participants.foldl (fun s o => (s.refreshIfStale site e o).2) s) :=
        refolds_foldl t.participants s fun _ _ o _ => refolds_refreshIfStale o
      rcases hrefolds.refolded o with ⟨hlive, -⟩ | ⟨hin, hstale⟩
      · rw [hlive] at h
        exact .inl h
      · exact .inr ⟨⟨hlog, rfl⟩, hin, hstale⟩
    | false =>
      simp only [hread, Bool.false_eq_true, if_false] at h
      refine .inl ?_
      have hall : ∀ (objects : List ι) (s : State ι Img Sql Row),
          Shuts s (objects.foldl (fun s o => s.refoldCleanBase site e o) s) := by
        intro objects
        induction objects with
        | nil => exact fun _ _ h => h
        | cons o objects ih => exact fun s => (shuts_refoldCleanBase o).trans (ih _)
      exact hall t.participants s o h
  · rw [if_neg hlog] at h
    exact .inl h

theorem shuts_register {po : PollOpts} {o : ι} {op : Op ι Sql} {results : List (OpResult Row)}
    (ho : (s.live o).isSome) : Shuts s (s.register site e t po o op results) := by
  have hrefresh : Shuts s (s.refreshStalePoll site e.again o po op).2 := by
    rw [(refreshStalePoll_cases site e.again s o po op).1]
    intro o' ho'
    have hrefolds : Refolds e.again [o] s (s.refreshIfStale site e.again o).2 :=
      refolds_refreshIfStale o
    rcases hrefolds.refolded o' with ⟨hlive, -⟩ | ⟨hin, -⟩
    · rwa [hlive] at ho'
    · rwa [List.mem_singleton.mp hin]
  unfold State.register
  dsimp only
  split
  · exact fun _ h => h
  · split
    · rename_i response s' heq
      split at heq
      · rw [heq] at hrefresh
        exact hrefresh
      · cases heq
    · rename_i s' heq
      split at heq
      · rw [heq] at hrefresh
        exact hrefresh
      · cases heq
        exact fun _ h => h

theorem shuts_settle {results : List (OpResult Row)} {changed : List ι}
    (hlive : ∀ o ∈ t.participants, (s.live o).isSome) :
    Shuts s (s.settle site e t results changed) := by
  unfold State.settle
  split
  · split
    · rename_i po o op _ ho _
      exact shuts_register (hlive o (List.mem_of_mem_head? ho))
    · exact fun _ h => h
  · split
    · exact (talks_firePolls false t.participants).shuts
    · exact .trans (.of_eq (live_acknowledge site e t results changed s).1)
        (talks_firePolls false t.participants).shuts

theorem isSome_writeOps {ops : List (Op ι Sql)} {images images' : ι → Option Img}
    {results : List (OpResult Row)} (h : State.writeOps site images ops = .ok (results, images'))
    (o : ι) : (images' o).isSome = (images o).isSome := by
  rcases writeOps_later h o with hsame | ⟨old, new, hold, hnew, -⟩
  · rw [hsame]
  · rw [hold, hnew]
    rfl

/-- What applying a transaction comes to: it fails as it is, or at a COMMIT; or it succeeds, where
all participants are live and stay so. -/
theorem apply_cases (site : Site ι Img Sql Row) (e : Env ι) (t : Txn ι Sql)
    (s : State ι Img Sql Row) :
    (∃ error, s.apply site e t = (.error error, s) ∧ s.failedCommit site e t = none) ∨
    (∃ error failedAt, s.apply site e t =
        (.error error, s.revertClosure (t.participants.take failedAt)) ∧
      s.failedCommit site e t = some failedAt) ∨
    ∃ results changed s', s.apply site e t = (.ok (results, changed), s') ∧
      (∀ o, (s'.live o).isSome = (s.live o).isSome) ∧ ∀ o ∈ t.participants, (s.live o).isSome := by
  unfold State.apply State.failedCommit
  cases hmissing : t.participants.find? fun o => (s.live o).isNone with
  | some missing => exact .inl ⟨_, rfl, rfl⟩
  | none =>
    have hall : ∀ o ∈ t.participants, (s.live o).isSome := by
      intro o ho
      have := List.find?_eq_none.mp hmissing o ho
      simpa [Option.isNone_iff_eq_none, Option.isSome_iff_ne_none] using this
    dsimp only
    cases hread : t.readOnly with
    | true =>
      simp only [if_true]
      cases s.readOps site t.ops with
      | error error => exact .inl ⟨error, rfl, trivial⟩
      | ok results => exact .inr (.inr ⟨results, [], s, rfl, fun _ => rfl, hall⟩)
    | false =>
      simp only [Bool.false_eq_true, if_false]
      cases hwrites : State.writeOps site s.live t.ops with
      | error msg => exact .inl ⟨_, rfl, rfl⟩
      | ok written =>
        obtain ⟨results, images⟩ := written
        dsimp only
        cases e.commitError.filter fun failed => failed.1 < t.participants.length with
        | some failed =>
          obtain ⟨failedAt, msg⟩ := failed
          exact .inr (.inl ⟨_, failedAt, rfl, rfl⟩)
        | none =>
          refine .inr (.inr ⟨results, _, _, rfl, fun o => ?_, hall⟩)
          dsimp only
          split_ifs
          · exact isSome_writeOps hwrites o
          · rfl

theorem shuts_execute : Shuts s (s.execute site e t) := by
  unfold State.execute
  rcases apply_cases site e t s with ⟨error, heq, -⟩ | ⟨error, failedAt, heq, -⟩ |
    ⟨results, changed, s', heq, hsame, hall⟩
  · rw [heq]
    exact fun _ h => h
  · rw [heq]
    exact shuts_revertClosure _
  · rw [heq]
    have hlive : ∀ o ∈ t.participants, (s'.live o).isSome := by
      intro o ho
      rw [hsame]
      exact hall o ho
    refine Shuts.trans (fun o ho => ?_) (shuts_settle hlive)
    rwa [hsame] at ho

/-- The calls spare what is live in the end. -/
def Sparing (s : State ι Img Sql Row) (calls : List (DiskCall ι)) : Prop :=
  ∀ o, (s.live o).isSome → ∀ c ∈ calls, c.Spares o

section

omit [LinearOrder ι]

theorem sparing_nil (s : State ι Img Sql Row) : Sparing s [] := fun _ _ _ h => by cases h

theorem Sparing.shuts {calls : List (DiskCall ι)} (h : Sparing s calls) (hshuts : Shuts s s') :
    Sparing s' calls := fun o ho => h o (hshuts o ho)

theorem Sparing.append {calls calls' : List (DiskCall ι)} (h : Sparing s calls)
    (h' : Sparing s calls') : Sparing s (calls ++ calls') := by
  intro o ho c hc
  rcases List.mem_append.mp hc with hc | hc
  · exact h o ho c hc
  · exact h' o ho c hc

theorem sparing_remove {objects : List ι} (h : ∀ o ∈ objects, s.live o = none) :
    Sparing s (objects.map .remove) := by
  intro o ho c hc
  obtain ⟨o', ho', rfl⟩ := List.mem_map.mp hc
  rintro rfl
  rw [h o' ho'] at ho
  cases ho

end

theorem sparing_revertCalls (seed : List ι) : Sparing (s.revertClosure seed) (s.revertCalls seed) :=
  sparing_remove fun o ho => ((reverted_revertClosure s seed).cold o ho).1

theorem sparing_orphanCalls : Sparing (s.revertOrphaned e) (s.orphanCalls e) := by
  unfold State.revertOrphaned State.orphanCalls
  dsimp only
  split
  · exact sparing_nil s
  · exact sparing_revertCalls _

theorem sparing_launchCalls : Sparing (s.launch site e) (s.launchCalls site e) := by
  unfold State.launch State.launchCalls
  dsimp only
  split_ifs
  · exact sparing_nil _
  · exact sparing_nil _
  · exact sparing_nil _
  · exact sparing_remove fun o ho => if_pos ho

theorem sparing_maybeLaunchCalls : Sparing (s.maybeLaunch site e) (s.maybeLaunchCalls site e) :=
  (sparing_orphanCalls.shuts (hears_launch : Hears site e _ _).shuts).append sparing_launchCalls

theorem sparing_executeCalls : Sparing (s.execute site e t) (s.executeCalls site e t) := by
  unfold State.execute State.executeCalls
  rcases apply_cases site e t s with ⟨error, heq, hfailed⟩ | ⟨error, failedAt, heq, hfailed⟩ |
    ⟨results, changed, s', heq, -, -⟩
  · rw [heq, hfailed]
    exact sparing_nil _
  · rw [heq, hfailed]
    exact sparing_revertCalls _
  · rw [heq]
    intro o _ c hc
    obtain ⟨o', -, rfl⟩ := List.mem_map.mp hc
    trivial

theorem sparing_runCalls : Sparing (s.runAndComplete site e t) (s.runCalls site e t) :=
  (sparing_executeCalls.shuts hears_maybeLaunch.shuts).append sparing_maybeLaunchCalls

omit [LinearOrder ι] in
theorem sparing_enforce : Sparing s [.enforce] := by
  intro o _ c hc
  rw [List.mem_singleton.mp hc]
  trivial

theorem sparing_shipDoneCalls : Sparing (s.onShipDone site e) (s.shipDoneCalls site e) := by
  cases hship : s.ship with
  | none =>
    simp only [State.onShipDone, State.shipDoneCalls, hship]
    exact sparing_nil s
  | some ship =>
    obtain ⟨items, waiters, voyage⟩ := ship
    cases hinflight : s.boats.inflight with
    | none =>
      cases voyage <;> simp only [State.onShipDone, State.shipDoneCalls, hship, hinflight] <;>
        exact sparing_nil s
    | some objects =>
      cases voyage with
      | underway =>
        simp only [State.onShipDone, State.shipDoneCalls, hship, hinflight]
        exact sparing_nil s
      | committed promoted =>
        simp only [State.onShipDone, State.shipDoneCalls, hship, hinflight]
        exact (sparing_enforce.append sparing_maybeLaunchCalls).shuts talks_finishClosing.shuts
      | failed landed rebased =>
        simp only [State.onShipDone, State.shipDoneCalls, hship, hinflight]
        refine Sparing.shuts ?_ talks_finishClosing.shuts
        refine Sparing.append ?_ (sparing_enforce.append sparing_maybeLaunchCalls)
        exact (sparing_revertCalls objects).shuts (hears_maybeLaunch : Hears site e _ _).shuts

theorem shuts_landed {shipped promoted objects : List ι} :
    Shuts s (s.landed site e shipped promoted objects) := by
  unfold State.landed
  dsimp only
  refine Shuts.trans (.of_eq ?_) (talks_firePolls true _).shuts
  split_ifs <;> rfl

theorem shuts_onShipDone : Shuts s (s.onShipDone site e) := by
  unfold State.onShipDone
  split
  · rename_i items waiters promoted objects _ _
    let docked := { s with boats := { s.boats with inflight := none }, ship := none }
    have hlanded : Shuts docked
        (State.landed site e (items.map ShipItem.object) promoted objects docked) := shuts_landed
    refine Shuts.trans ?_ talks_finishClosing.shuts
    exact hlanded.trans hears_maybeLaunch.shuts
  · rename_i items waiters rebased objects _ _
    refine Shuts.trans ?_ talks_finishClosing.shuts
    refine Shuts.trans ?_ hears_maybeLaunch.shuts
    refine Shuts.trans ?_ (shuts_revertClosure objects)
    exact (hears_relinquish rebased : Hears site e _ _).shuts
  · exact fun _ h => h

variable {berth : Berth ι Img Sql Row} {d : Disk ι} {h h' : Housed ι Img Sql Row}

/-- Every object with an open connection has its working file recorded as live, and the last step
has not unlinked it. -/
structure Spared (h : Housed ι Img Sql Row) : Prop where
  recorded : ∀ o, (h.worker.live o).isSome → h.ledger.IsLive o
  linked : ∀ o, (h.worker.live o).isSome → o ∉ h.unlinked

/-- For a recheck, which counts an object's entries first, and then folds them. -/
def Env.recounted (e : Env ι) : Env ι :=
  { e with folds := fun o => (e.refolds o).bind fun _ => e.folds o }

/-- What a step re-folds in place is clean and stale: objects with parked polls at a recheck, and
the participants of what only reads. -/
def Rereads (site : Site ι Img Sql Row) (s : State ι Img Sql Row) (m : Move ι Img Sql × Env ι)
    (o : ι) : Prop :=
  site.logPrimary = true ∧
    match m.1 with
    | .run t => Stale m.2 s o ∧ t.readOnly = true ∧ o ∈ t.participants
    | .recheckPolls => Stale m.2.recounted s o ∧ o ∈ s.polls.map Prod.fst
    | _ => False

/-- A stale object that is re-folded in place is open, or its file is recorded as live anyway. -/
def Housed.OpensRecorded (berth : Berth ι Img Sql Row) (h : Housed ι Img Sql Row) :
    NodeMove ι Img Sql → Prop
  | .own m _ => ∀ o, Rereads berth.toSite h.worker m o →
      (h.worker.live o).isSome ∨ h.ledger.IsLive o
  | .others _ => True

theorem refolds_recheck {o : ι} (hclean : s.boats.unshipped o = false) :
    Refolds e.recounted [o] s (s.recheck site e o) := by
  obtain ⟨fresh, -, hfresh, htalks, -⟩ := recheck_cases site e s o
  have hrefolds : Refolds e.recounted [o] s fresh := by
    rcases hfresh with rfl | ⟨-, rfl⟩
    · exact ⟨rfl, rfl, fun _ => .inl ⟨rfl, rfl⟩⟩
    · obtain heq | ⟨uncounted, missed, hcount, hread, hbehind, heq⟩ := recount_cases site e s o
      · rw [heq]
        exact ⟨rfl, rfl, fun _ => .inl ⟨rfl, rfl⟩⟩
      · rw [heq]
        refine refolds_refold ⟨hclean, uncounted, ?_, hbehind⟩ missed
        change ((e.refolds o).bind fun _ => e.folds o) = some uncounted
        rw [hread, hcount]
        rfl
  exact hrefolds.trans htalks.refolds

theorem talks_recheck (hlog : site.logPrimary = false) (o : ι) : Talks s (s.recheck site e o) := by
  obtain ⟨fresh, -, hfresh, htalks, -⟩ := recheck_cases site e s o
  rcases hfresh with rfl | ⟨htrue, -⟩
  · exact htalks
  · rw [hlog] at htrue
    cases htrue

/-- What a recheck makes live was stale. -/
theorem opened_recheckPolls {o : ι} (ho : ((s.recheckPolls site e).live o).isSome) :
    (s.live o).isSome ∨
      site.logPrimary = true ∧ Stale e.recounted s o ∧ o ∈ s.polls.map Prod.fst := by
  have heq : s.recheckPolls site e =
      ((s.polls.map Prod.fst).dedup.filter fun o => !s.boats.unshipped o).foldl
        (State.recheck site e) s := rfl
  rw [heq] at ho
  cases hlog : site.logPrimary with
  | false =>
    left
    generalize ((s.polls.map Prod.fst).dedup.filter fun o => !s.boats.unshipped o) = objects at ho
    induction objects generalizing s with
    | nil => exact ho
    | cons o' objects ih => exact (talks_recheck hlog o').shuts o (ih rfl ho)
  | true =>
    have hrefolds : Refolds e.recounted
        ((s.polls.map Prod.fst).dedup.filter fun o => !s.boats.unshipped o) s
        (((s.polls.map Prod.fst).dedup.filter fun o => !s.boats.unshipped o).foldl
          (State.recheck site e) s) := by
      refine refolds_foldl _ s fun s' hboats o' ho' => refolds_recheck ?_
      rw [hboats]
      simpa using (List.mem_filter.mp ho').2
    rcases hrefolds.refolded o with ⟨hlive, -⟩ | ⟨hin, hstale⟩
    · rw [hlive] at ho
      exact .inl ho
    · exact .inr ⟨rfl, hstale, List.mem_dedup.mp (List.mem_filter.mp hin).1⟩

theorem shuts_setLive_none (o : ι) : Shuts s (s.setLive o none) := by
  intro o' ho'
  by_cases ho : o' = o
  · subst ho
    have hnone : (s.setLive o' none).live o' = none := Function.update_self _ _ _
    rw [hnone] at ho'
    cases ho'
  · have hsame : (s.setLive o none).live o' = s.live o' := Function.update_of_ne ho _ _
    rwa [hsame] at ho'

theorem shuts_shutdown : Shuts s (s.shutdown site e) := by
  have hclosing : Shuts s { s with closing := true } := .of_eq rfl
  have hlaunched : Shuts { s with closing := true }
      ({ s with closing := true }.maybeLaunch site e) :=
    hears_maybeLaunch.shuts
  exact (hclosing.trans hlaunched).trans talks_finishClosing.shuts

theorem shuts_shed : Shuts s (s.shed e) := by
  intro o ho
  have ho : (if s.boats.unshipped o || e.queued o then s.live o else none).isSome := ho
  split_ifs at ho
  · exact ho
  · cases ho

theorem shuts_cancelPoll (o : ι) (conn frame : Nat) : Shuts s (s.cancelPoll o conn frame) :=
  .of_eq rfl

theorem shuts_release (o : ι) : Shuts s (s.release o) := by
  unfold State.release
  split_ifs
  · exact fun _ h => h
  · exact .trans (talks_failPolls [o] _).shuts (shuts_setLive_none o)

theorem shuts_arrive (o : ι) : Shuts s (s.arrive site e o) := by
  unfold State.arrive
  split
  · exact .trans (shuts_setLive_none o) (.of_eq rfl)
  · exact fun _ h => h

/-- What a step of the worker makes live is an activation's object, or was re-read. -/
theorem opened_step {m : Move ι Img Sql × Env ι} {o : ι} (hmove : ∀ i ok, m.1 ≠ .activated i ok)
    (ho : ((s.step site m).live o).isSome) : (s.live o).isSome ∨ Rereads site s m o := by
  obtain ⟨move, e⟩ := m
  have hhandle {next : State ι Img Sql Row}
      (hnext : (next.live o).isSome → (s.live o).isSome ∨ Rereads site s (move, e) o)
      (hlive : ((({ s with outbox := [] } : State ι Img Sql Row).handle next).live o).isSome) :
      (s.live o).isSome ∨ Rereads site s (move, e) o := by
    unfold State.handle at hlive
    split_ifs at hlive
    · exact .inl hlive
    · exact hnext hlive
  have hshuts {next : State ι Img Sql Row}
      (hnext : Shuts ({ s with outbox := [] } : State ι Img Sql Row) next) :
      (next.live o).isSome → (s.live o).isSome ∨ Rereads site s (move, e) o :=
    fun hlive => .inl (hnext o hlive)
  cases move with
  | run t =>
    refine hhandle (fun hlive => ?_) ho
    have hcaught := shuts_execute o (hears_maybeLaunch.shuts o hlive)
    rcases opened_catchUp hcaught with hopen | ⟨⟨hlog, hread⟩, hin, hstale⟩
    · exact .inl hopen
    · exact .inr ⟨hlog, hstale, hread, hin⟩
  | startFetch o' => exact hshuts (.of_eq (offshore_startFetch o').live) ho
  | activated i ok => exact absurd rfl (hmove i ok)
  | shipDone => exact hhandle (hshuts shuts_onShipDone) ho
  | shutdown => exact hhandle (hshuts shuts_shutdown) ho
  | shed => exact hhandle (hshuts shuts_shed) ho
  | recheckPolls =>
    refine hhandle (fun hlive => ?_) ho
    rcases opened_recheckPolls hlive with hopen | ⟨hlog, hstale, hin⟩
    · exact .inl hopen
    · exact .inr ⟨hlog, hstale, hin⟩
  | cancelPoll o' conn frame => exact hhandle (hshuts (shuts_cancelPoll o' conn frame)) ho
  | release o' => exact hhandle (hshuts (shuts_release o')) ho
  | arrive o' => exact hhandle (hshuts (shuts_arrive o')) ho
  | commit => exact hshuts (.of_eq offshore_commit.live) ho
  | fail landed rebased msg => exact hshuts (.of_eq (offshore_fail landed rebased msg).live) ho
  | clear o' => exact hshuts (.of_eq (offshore_clear o').live) ho
  | promote o' => exact hshuts (.of_eq (offshore_promote o').live) ho
  | recover o' => exact hshuts (.of_eq (lands_recoverTouching _ _ o').1.live) ho
  | forget i => exact hshuts (.of_eq (offshore_forget i).live) ho
  | peer o' image => exact hshuts (.of_eq (offshore_peer o' image).live) ho
  | peerClear o' seq => exact hshuts (.of_eq (offshore_peerClear o' seq).live) ho

theorem sparing_shedCalls : Sparing (s.shed e) (s.shedCalls berth e d) := by
  unfold State.shedCalls
  dsimp only
  split_ifs
  · exact sparing_nil _
  · refine Sparing.append (fun o ho c hc => ?_) sparing_enforce
    obtain ⟨o', ho', rfl⟩ := List.mem_map.mp hc
    rintro rfl
    have ho : (if s.boats.unshipped o' || e.queued o' then s.live o' else none).isSome := ho
    have hidle := (List.mem_filter.mp ho').2
    rw [Bool.and_eq_true, Bool.not_eq_true'] at hidle
    rw [if_neg (by simp [hidle.2])] at ho
    cases ho

theorem sparing_releaseCalls (o : ι) : Sparing (s.release o) (s.releaseCalls berth d o) := by
  unfold State.release State.releaseCalls
  split_ifs
  · exact sparing_nil _
  · intro o' ho' c hc
    rw [List.mem_singleton.mp hc]
    rintro rfl
    have hnone : ((s.failPolls [o] "object migrated; re-poll").setLive o none).live o = none :=
      Function.update_self _ _ _
    rw [hnone] at ho'
    cases ho'

omit [LinearOrder ι] in
theorem sparing_activatedCalls (f : Fetch ι Img) (ok : Bool) (o : ι) :
    ∀ c ∈ s.activatedCalls berth e f ok, c.Spares o := by
  unfold State.activatedCalls
  split_ifs
  · intro c hc
    rcases List.mem_cons.mp hc with rfl | hc
    · trivial
    · rw [List.mem_singleton.mp hc]
      trivial
  · intro c hc
    cases hc

/-- The files that a step of the worker demotes or forgets are cold after it. -/
theorem sparing_calls (m : Move ι Img Sql × Env ι) :
    Sparing (s.step berth.toSite m) (s.calls berth d m) := by
  obtain ⟨move, e⟩ := m
  unfold State.calls State.step State.handle
  dsimp only
  split_ifs with hhalted
  · exact sparing_nil _
  · cases move with
    | run t => exact sparing_runCalls
    | shipDone => exact sparing_shipDoneCalls
    | shutdown =>
      exact (sparing_maybeLaunchCalls (s := { s with outbox := [], closing := true })).shuts
        talks_finishClosing.shuts
    | shed => exact sparing_shedCalls
    | release o => exact sparing_releaseCalls o
    | activated i ok =>
      dsimp only
      cases hfetch : s.fetches[i]? with
      | none => exact sparing_nil _
      | some f => exact fun o _ => sparing_activatedCalls f ok o
    | startFetch | recheckPolls | cancelPoll | arrive | commit | fail | clear | promote | recover
    | forget | peer | peerClear => exact sparing_nil _

theorem opened_onActivated {f : Fetch ι Img} {ok : Bool} {o : ι}
    (ho : ((s.onActivated site e f ok).live o).isSome) : (s.live o).isSome ∨
      o = f.object ∧ (ok && e.owns f.object && (s.live f.object).isNone) = true := by
  unfold State.onActivated at ho
  split at ho
  · rename_i hinstalls
    by_cases hobject : o = f.object
    · exact .inr ⟨hobject, hinstalls⟩
    · left
      have hupdate : Function.update s.live f.object (some f.image) o = s.live o :=
        Function.update_of_ne hobject _ _
      rw [← hupdate]
      dsimp only at ho
      split at ho
      · exact ho
      · exact ho
  · exact .inl ho

/-- An activation records what it opens. -/
theorem activated_recorded {i : Nat} {ok : Bool} {o : ι} {l : DiskLedger ι}
    (hrecorded : ∀ o, (s.live o).isSome → l.IsLive o)
    (ho : ((s.step berth.toSite (.activated i ok, e)).live o).isSome) :
    (l.serve (s.calls berth d (.activated i ok, e))).1.IsLive o ∧
      o ∉ (l.serve (s.calls berth d (.activated i ok, e))).2 := by
  have hspares : ∀ c ∈ s.calls berth d (.activated i ok, e), c.Spares o := sparing_calls _ o ho
  cases hlive : s.live o with
  | some image => exact (hrecorded o (by rw [hlive]; rfl)).serve hspares
  | none =>
    have hcold (hsome : (s.live o).isSome) : False := by
      rw [hlive] at hsome
      cases hsome
    unfold State.step State.handle at ho
    unfold State.calls
    dsimp only at ho ⊢
    cases hfetch : s.fetches[i]? with
    | none =>
      rw [hfetch] at ho
      exact (hcold ho).elim
    | some f =>
      rw [hfetch] at ho
      dsimp only at ho
      split_ifs at ho with hhalted
      · exact (hcold ho).elim
      · rcases opened_onActivated ho with hopen | ⟨hobject, hinstalls⟩
        · exact (hcold hopen).elim
        · rw [if_neg hhalted, hobject]
          dsimp only
          rw [State.activatedCalls, if_pos hinstalls]
          exact DiskLedger.serve_setLive (by simp [DiskCall.Spares])

theorem Spared.own (hs : Spared h) (m : Move ι Img Sql × Env ι)
    (hopens : h.OpensRecorded berth (.own m d)) : Spared (h.step berth (.own m d)) := by
  have hall : ∀ o, ((h.worker.step berth.toSite m).live o).isSome →
      (h.ledger.serve (h.worker.calls berth d m)).1.IsLive o ∧
        o ∉ (h.ledger.serve (h.worker.calls berth d m)).2 := by
    intro o ho
    by_cases hactivated : ∃ i ok, m.1 = .activated i ok
    · obtain ⟨i, ok, hmove⟩ := hactivated
      obtain ⟨move, e⟩ := m
      subst hmove
      exact activated_recorded hs.recorded ho
    · have hmove : ∀ i ok, m.1 ≠ .activated i ok := fun i ok heq => hactivated ⟨i, ok, heq⟩
      have hrecorded : h.ledger.IsLive o := by
        rcases opened_step hmove ho with hopen | hreread
        · exact hs.recorded o hopen
        · exact (hopens o hreread).elim (hs.recorded o) id
      exact hrecorded.serve (sparing_calls m o ho)
  exact ⟨fun o ho => (hall o ho).1, fun o ho => (hall o ho).2⟩

theorem Spared.others (hs : Spared h) (c : DiskCall ι) : Spared (h.step berth (.others c)) := by
  unfold Housed.step
  dsimp only
  split
  · exact ⟨hs.recorded, fun _ _ => List.not_mem_nil⟩
  · rename_i helsewhere
    have hspares : ∀ o, (h.worker.live o).isSome → ∀ c' ∈ [c], c'.Spares o := by
      intro o ho c' hc'
      rw [List.mem_singleton.mp hc']
      cases c with
      | setCache path len worker =>
        rintro rfl
        exact helsewhere ho
      | remove path =>
        rintro rfl
        exact helsewhere ho
      | setLive | touch | enforce => trivial
    exact ⟨fun o ho => ((hs.recorded o ho).serve (hspares o ho)).1,
      fun o ho => ((hs.recorded o ho).serve (hspares o ho)).2⟩

/-- As long as what is re-folded in place is open, or recorded as live anyway, every open database
has its file recorded as live, and no file of one is unlinked. -/
theorem open_files_spared (berth : Berth ι Img Sql Row) (budget : Nat) (shelf : Shelf ι Img)
    (moves : List (NodeMove ι Img Sql))
    (hopens : Runs.Guarded (Housed.step berth) (Housed.OpensRecorded berth)
      (Housed.boot budget shelf) moves) :
    Runs.Throughout (Housed.step berth) Spared (Housed.boot budget shelf) moves := by
  refine hopens.throughout (I := Spared) (fun h m hs hgood => ?_) (fun _ hs => hs) ?_
  · cases m with
    | own m d => exact hs.own m hgood
    | others c => exact hs.others c
  · exact ⟨fun _ ho => (by cases ho), fun _ ho => (by cases ho)⟩

section Demo

/-- Every image takes 100 bytes. -/
def berthOf100 : Berth Nat Nat Bool Nat := { station true with size := fun _ => 100, worker := 0 }

def emptyShelf : Shelf Nat Nat := ⟨fun _ => [], fun _ => 0, []⟩

/-- A poll parks on object 0, and nothing has been committed to it since it was activated. -/
def parkedMoves : List (NodeMove Nat Nat Bool) :=
  [.own (.startFetch 0, fair) {}, .own (.activated 0 true, fair) {},
    .own (.run (waitFor 0 false), fair) {}, .own (.recheckPolls, fair) {}]

theorem open_files_spared_parked :
    Runs.Throughout (Housed.step berthOf100) Spared (Housed.boot 150 emptyShelf) parkedMoves := by
  refine open_files_spared berthOf100 150 emptyShelf parkedMoves ⟨?_, ?_, ?_, ?_, trivial⟩
  · rintro o ⟨-, hfalse⟩
    exact hfalse.elim
  · rintro o ⟨-, hfalse⟩
    exact hfalse.elim
  · rintro o ⟨-, -, -, hin⟩
    cases List.mem_singleton.mp hin
    exact .inl rfl
  · rintro o ⟨-, -, hin⟩
    cases List.mem_singleton.mp hin
    exact .inl rfl

/-- Two objects exceed the budget, and a poll is parked on 1, when both are shed, and the file of 0
is deleted. Another worker commits to 1, the recheck opens it again, and then a file of another
worker exceeds the budget. -/
def reopenedMoves : List (NodeMove Nat Nat Bool) :=
  [.own (.startFetch 0, fair) {}, .own (.activated 0 true, fair) {},
    .own (.startFetch 1, fair) {}, .own (.activated 0 true, fair) {},
    .own (.run (waitFor 1 false), fair) {},
    .own (.shed, fair) { keys := [0, 1], metadata := fun _ => some 100 },
    .own (.peer 1 1, fair) {}, .own (.recheckPolls, fair) {},
    .others (.setLive 2 100 7), .others .enforce]

/-- The file of the open database is deleted. -/
theorem open_file_unlinked :
    ¬ Runs.Throughout (Housed.step berthOf100) Spared (Housed.boot 150 emptyShelf)
      reopenedMoves := by
  intro hspared
  have hunlinked : 1 ∈
      (Runs.run (Housed.step berthOf100) (Housed.boot 150 emptyShelf) reopenedMoves).unlinked :=
    List.mem_cons_self
  exact hspared.last.linked 1 rfl hunlinked

end Demo

end Polls

end Fafo
