import Fafo.Wills

/-! A will whose connection is gone: sweeps that fire it are a claim's life apart. -/
namespace Fafo.Wills

open Submission

/-- A sweep's claim of a row: its transaction, the sweep's clock, and the deadline it set. -/
structure Hold where
  id : Nat
  now : Nat
  till : Nat
  deriving DecidableEq, Repr

/-- Of two claims, one sweep began after the other's had run out. -/
def Apart (a b : Hold) : Prop := a.till < b.now ∨ b.till < a.now

instance : Std.Symm Apart := ⟨fun _ _ h => h.symm⟩

/-- The claim that a task waits for. -/
def Job.claimOf : Job → Option (String × Nat × Nat)
  | claiming _ now ttl row _ => some (row.session, now, now + ttl)
  | _ => none

/-- The claim of a session's row that an answer lets a sweep fire under. -/
def fireOf (c : String) (s : State) : Move → Option Hold
  | .answer i k =>
    match s.flight[k]?, (s.tasks i).job with
    | some f, .claiming _ now ttl row _ =>
      if f.id = (s.tasks i).stmt ∧ f.result.isSome ∧ f.result ≠ some (.affected 0) ∧
          row.session = c ∧ row.payload ≠ .garbled then
        some ⟨f.id, now, now + ttl⟩
      else none
    | _, _ => none
  | _ => none

/-- The claims that a session's will is fired under, as the run goes. -/
def firesIn (c : String) : State → List Move → List Hold
  | _, [] => []
  | s, m :: moves => (fireOf c s m).toList ++ firesIn c (s.step m) moves

/-- The session's connection is gone, and every claim of its row is answered. -/
def Orphaned (c : String) (s : State) : Move → Prop
  | .frame _ client _ _ _ | .close _ client => s.session client ≠ c
  | .fail i => ∀ session now till, (s.tasks i).job.claimOf = some (session, now, till) →
      session ≠ c
  | _ => True

/-- `wins` are the claims that have taken the row, newest first; `fires` are those of them that a
sweep was told of. -/
structure Spaced (c : String) (s : State) (wins fires : List Hold) : Prop where
  ids : ∀ f ∈ s.flight, f.id < s.nextStmt
  stmts : ∀ i, (s.tasks i).job.claimOf.isSome → (s.tasks i).stmt < s.nextStmt
  distinct : ∀ i j, i ≠ j → (s.tasks i).job.claimOf.isSome → (s.tasks j).job.claimOf.isSome →
    (s.tasks i).stmt ≠ (s.tasks j).stmt
  awaited : ∀ i session now till, (s.tasks i).job.claimOf = some (session, now, till) →
    ∀ f ∈ s.flight, f.id = (s.tasks i).stmt → f.stmt = .claim session now till
  unarmed : ∀ f ∈ s.flight, ∀ deadline w frame, f.stmt ≠ .arm c deadline w frame
  won : ∀ f ∈ s.flight, ∀ now till, f.stmt = .claim c now till → ∀ r, f.result = some r →
    r = .affected 0 ∨ ⟨f.id, now, till⟩ ∈ wins
  ahead : ∀ f ∈ s.flight, ∀ now till, f.stmt = .claim c now till → now ≤ till
  held : ∀ row, s.table.lookup c = some row → ∀ win ∈ wins, win.till ≤ row.claimDeadline
  apart : wins.Pairwise Apart
  fired : ∀ hold ∈ fires, hold ∈ wins ∧ hold.id < s.nextStmt
  fresh : ∀ i, (s.tasks i).job.claimOf.isSome → ∀ hold ∈ fires, hold.id ≠ (s.tasks i).stmt
  nodup : (fires.map Hold.id).Nodup

variable {c : String} {s s' : State} {wins fires : List Hold}

theorem Spaced.congr (h : Spaced c s wins fires) (htable : s'.table = s.table)
    (hflight : s'.flight = s.flight) (htasks : s'.tasks = s.tasks)
    (hnext : s'.nextStmt = s.nextStmt) : Spaced c s' wins fires := by
  constructor
  · simpa only [hflight, hnext] using h.ids
  · simpa only [htasks, hnext] using h.stmts
  · simpa only [htasks] using h.distinct
  · simpa only [hflight, htasks] using h.awaited
  · simpa only [hflight] using h.unarmed
  · simpa only [hflight] using h.won
  · simpa only [hflight] using h.ahead
  · simpa only [htable] using h.held
  · exact h.apart
  · simpa only [hnext] using h.fired
  · simpa only [htasks] using h.fresh
  · exact h.nodup

/-- Tasks that only end, or stay. -/
theorem Spaced.ends (h : Spaced c s wins fires) {tasks : Nat → Task}
    (htasks : ∀ j, tasks j = s.tasks j ∨ (tasks j).job.claimOf = none) :
    Spaced c { s with tasks } wins fires := by
  have hsame : ∀ j, (tasks j).job.claimOf.isSome → tasks j = s.tasks j := by
    intro j hj
    rcases htasks j with heq | hnone
    · exact heq
    · rw [hnone] at hj
      cases hj
  refine { h with stmts := ?_, distinct := ?_, awaited := ?_, fresh := ?_ }
  · intro i hi
    change (tasks i).stmt < s.nextStmt
    rw [hsame i hi]
    exact h.stmts i (hsame i hi ▸ hi)
  · intro i j hne hi hj
    change (tasks i).stmt ≠ (tasks j).stmt
    rw [hsame i hi, hsame j hj]
    exact h.distinct i j hne (hsame i hi ▸ hi) (hsame j hj ▸ hj)
  · intro i session now till hi f hf hid
    have heq := hsame i (by rw [hi]; rfl)
    exact h.awaited i session now till (heq ▸ hi) f hf (heq ▸ hid)
  · intro i hi hold hhold
    change hold.id ≠ (tasks i).stmt
    rw [hsame i hi]
    exact h.fresh i (hsame i hi ▸ hi) hold hhold

theorem Spaced.endTask (h : Spaced c s wins fires) (i : Nat) :
    Spaced c (s.endTask i) wins fires := by
  refine h.ends fun j => ?_
  by_cases hj : j = i
  · subst hj
    right
    simp [Job.claimOf]
  · left
    simp [hj]

/-- A transaction that nobody waits for is submitted. -/
theorem Spaced.push (h : Spaced c s wins fires) {stmt : Stmt}
    (harm : ∀ deadline w frame, stmt ≠ .arm c deadline w frame)
    (hahead : ∀ now till, stmt = .claim c now till → now ≤ till) :
    Spaced c { s with
      flight := ⟨s.nextStmt, stmt, none⟩ :: s.flight
      nextStmt := s.nextStmt + 1 } wins fires := by
  constructor
  · intro f hf
    rcases List.mem_cons.mp hf with rfl | hf
    · exact Nat.lt_succ_self _
    · exact Nat.lt_succ_of_lt (h.ids f hf)
  · exact fun i hi => Nat.lt_succ_of_lt (h.stmts i hi)
  · exact h.distinct
  · intro i session now till hi f hf hid
    rcases List.mem_cons.mp hf with rfl | hf
    · have hlt := h.stmts i (by rw [hi]; rfl)
      dsimp only at hid
      omega
    · exact h.awaited i session now till hi f hf hid
  · intro f hf
    rcases List.mem_cons.mp hf with rfl | hf
    · exact harm
    · exact h.unarmed f hf
  · intro f hf now till hstmt r hr
    rcases List.mem_cons.mp hf with rfl | hf
    · cases hr
    · exact h.won f hf now till hstmt r hr
  · intro f hf
    rcases List.mem_cons.mp hf with rfl | hf
    · exact hahead
    · exact h.ahead f hf
  · exact h.held
  · exact h.apart
  · exact fun hold hhold => (h.fired hold hhold).imp_right Nat.lt_succ_of_lt
  · exact h.fresh
  · exact h.nodup

/-- A task goes on to its next transaction, perhaps to fire under the claim it waited for. -/
theorem Spaced.issue (h : Spaced c s wins fires) {i n : Nat} {job : Job} {stmt : Stmt}
    {more : Option Hold} (hmore : ∀ hold ∈ more, hold ∈ wins ∧ hold.id = (s.tasks i).stmt ∧
      (s.tasks i).job.claimOf.isSome)
    (hawaits : ∀ session now till, job.claimOf = some (session, now, till) →
      stmt = .claim session now till)
    (harm : ∀ deadline w frame, stmt ≠ .arm c deadline w frame)
    (hahead : ∀ now till, stmt = .claim c now till → now ≤ till) :
    Spaced c (s.issue i n job stmt) wins (more.toList ++ fires) := by
  have hpush := h.push harm hahead
  have htask : ∀ j, (s.issue i n job stmt).tasks j =
      if j = i then ⟨n, s.nextStmt, job⟩ else s.tasks j := by
    intro j
    by_cases hj : j = i
    · subst hj
      simp [State.issue]
    · simp [State.issue, hj]
  have hfired : ∀ hold ∈ more.toList ++ fires, hold ∈ wins ∧ hold.id < s.nextStmt := by
    intro hold hhold
    rcases List.mem_append.mp hhold with hnew | hold'
    · obtain ⟨hwin, hid, hclaims⟩ := hmore hold (Option.mem_toList.mp hnew)
      exact ⟨hwin, hid ▸ h.stmts i hclaims⟩
    · exact h.fired hold hold'
  constructor
  · exact hpush.ids
  · intro j hj
    rw [htask] at hj ⊢
    split_ifs at hj ⊢
    · exact Nat.lt_succ_self _
    · exact hpush.stmts j hj
  · intro j k hne hj hk
    rw [htask] at hj hk ⊢
    rw [htask]
    split_ifs at hj hk ⊢ with hji hki hki
    · exact absurd (hji.trans hki.symm) hne
    · exact (h.stmts k hk).ne'
    · exact (h.stmts j hj).ne
    · exact h.distinct j k hne hj hk
  · intro j session now till hj f hf hid
    rw [htask] at hj hid
    split_ifs at hj hid
    · rcases List.mem_cons.mp hf with rfl | hf
      · exact hawaits session now till hj
      · have hlt := h.ids f hf
        dsimp only at hid
        omega
    · exact hpush.awaited j session now till hj f hf hid
  · exact hpush.unarmed
  · exact hpush.won
  · exact hpush.ahead
  · exact h.held
  · exact h.apart
  · exact fun hold hhold => (hfired hold hhold).imp_right Nat.lt_succ_of_lt
  · intro j hj hold hhold
    rw [htask] at hj ⊢
    split_ifs at hj ⊢ with hji
    · exact (hfired hold hhold).2.ne
    · rcases List.mem_append.mp hhold with hnew | hold'
      · obtain ⟨_, hid, hclaims⟩ := hmore hold (Option.mem_toList.mp hnew)
        rw [hid]
        exact h.distinct i j (Ne.symm hji) hclaims hj
      · exact h.fresh j hj hold hold'
  · cases more with
    | none => exact h.nodup
    | some hold =>
      obtain ⟨_, hid, hclaims⟩ := hmore hold rfl
      refine List.nodup_cons.mpr ⟨fun hmem => ?_, h.nodup⟩
      obtain ⟨hold', hhold', heq⟩ := List.mem_map.mp hmem
      exact h.fresh i hclaims hold' hhold' (heq.trans hid)

theorem Spaced.issueQuiet (h : Spaced c s wins fires) (i n : Nat) {job : Job} {stmt : Stmt}
    (hawaits : ∀ session now till, job.claimOf = some (session, now, till) →
      stmt = .claim session now till)
    (harm : ∀ deadline w frame, stmt ≠ .arm c deadline w frame)
    (hahead : ∀ now till, stmt = .claim c now till → now ≤ till) :
    Spaced c (s.issue i n job stmt) wins fires := by
  have hnone : ∀ hold ∈ (none : Option Hold), hold ∈ wins ∧ hold.id = (s.tasks i).stmt ∧
      (s.tasks i).job.claimOf.isSome := fun _ hm => by cases hm
  exact h.issue hnone hawaits harm hahead

/-- A transaction that is not a claim, nor arms the session's will. -/
theorem Spaced.issuePlain (h : Spaced c s wins fires) (i n : Nat) {job : Job} {stmt : Stmt}
    (hjob : job.claimOf = none) (harm : ∀ deadline w frame, stmt ≠ .arm c deadline w frame)
    (hclaim : ∀ session now till, stmt ≠ .claim session now till) :
    Spaced c (s.issue i n job stmt) wins fires := by
  refine h.issueQuiet i n (fun session now till hawaits => ?_) harm fun now till hstmt => ?_
  · rw [hjob] at hawaits
    cases hawaits
  · exact absurd hstmt (hclaim c now till)

theorem refresh_claimDeadline (t : Table) (deadline : Nat) (session c : String) {row : Row}
    (h : (t.refresh deadline session).lookup c = some row) :
    ∃ row', t.lookup c = some row' ∧ row'.claimDeadline = row.claimDeadline := by
  unfold Table.refresh at h
  cases hrow : t.lookup session with
  | none =>
    rw [hrow] at h
    exact ⟨row, h, rfl⟩
  | some row' =>
    rw [hrow] at h
    dsimp only at h
    by_cases hc : c = session
    · subst hc
      rw [AList.lookup_insert] at h
      cases h
      exact ⟨row', hrow, rfl⟩
    · rw [AList.lookup_insert_ne hc] at h
      exact ⟨row, h, rfl⟩

/-- A claim takes its row, if that has lapsed, or changes nothing. -/
theorem exec_claim (t : Table) (c : String) (now till : Nat) :
    exec t (.claim c now till) = (t, .affected 0) ∨
      ∃ row, t.lookup c = some row ∧ row.claimDeadline < now ∧
        exec t (.claim c now till) =
          (t.insert c { row with claimDeadline := till }, .affected 1) := by
  simp only [exec]
  cases hrow : t.lookup c with
  | none => exact .inl rfl
  | some row =>
    dsimp only
    split_ifs with hlapsed
    · simp only [Row.lapsed, Bool.and_eq_true, decide_eq_true_eq] at hlapsed
      exact .inr ⟨row, rfl, hlapsed.2, rfl⟩
    · exact .inl rfl

/-- Nothing else sets a row's claim. -/
theorem exec_claimDeadline (t : Table) {stmt : Stmt} {c : String} {row : Row}
    (harm : ∀ deadline w frame, stmt ≠ .arm c deadline w frame)
    (hclaim : ∀ now till, stmt ≠ .claim c now till) (h : (exec t stmt).1.lookup c = some row) :
    ∃ row', t.lookup c = some row' ∧ row'.claimDeadline = row.claimDeadline := by
  cases stmt with
  | arm session deadline w frame =>
    have hc : c ≠ session := by
      rintro rfl
      exact harm deadline w frame rfl
    change (t.insert session _).lookup c = some row at h
    rw [AList.lookup_insert_ne hc] at h
    exact ⟨row, h, rfl⟩
  | delete session deleter =>
    change (t.erase session).lookup c = some row at h
    by_cases hc : c = session
    · subst hc
      rw [AList.lookup_erase] at h
      cases h
    · rw [AList.lookup_erase_ne hc] at h
      exact ⟨row, h, rfl⟩
  | refresh sessions deadline =>
    simp only [exec] at h
    induction sessions generalizing t with
    | nil => exact ⟨row, h, rfl⟩
    | cons session sessions ih =>
      rw [List.foldl_cons] at h
      obtain ⟨row', hrow', heq⟩ := ih _ (fun _ _ _ h => by cases h) (fun _ _ h => by cases h) h
      obtain ⟨row'', hrow'', heq'⟩ := refresh_claimDeadline t deadline session c hrow'
      exact ⟨row'', hrow'', heq'.trans heq⟩
  | list now start => exact ⟨row, h, rfl⟩
  | claim session now till =>
    have hc : c ≠ session := by
      rintro rfl
      exact hclaim now till rfl
    rcases exec_claim t session now till with heq | ⟨row', _, _, heq⟩
    · rw [heq] at h
      exact ⟨row, h, rfl⟩
    · rw [heq] at h
      change (t.insert session _).lookup c = some row at h
      rw [AList.lookup_insert_ne hc] at h
      exact ⟨row, h, rfl⟩
  | fire w arming => exact ⟨row, h, rfl⟩

/-- What the flights of a table have come to, once one more has taken effect. -/
theorem Spaced.settle (h : Spaced c s wins fires) {k : Nat} {f : Flight} {t : Table}
    {result : Result} (hf : f ∈ s.flight) {wins' : List Hold} (hsub : wins ⊆ wins')
    (hwon : ∀ now till, f.stmt = .claim c now till →
      result = .affected 0 ∨ ⟨f.id, now, till⟩ ∈ wins')
    (hheld : ∀ row, t.lookup c = some row → ∀ win ∈ wins', win.till ≤ row.claimDeadline)
    (hapart : wins'.Pairwise Apart) :
    Spaced c { s with
      table := t
      flight := s.flight.set k { f with result := some result } } wins' fires := by
  have hset : ∀ {P : Flight → Prop}, (∀ g ∈ s.flight, P g) → P { f with result := some result } →
      ∀ g ∈ s.flight.set k { f with result := some result }, P g := by
    intro P hall hnew g hg
    rcases List.mem_or_eq_of_mem_set hg with hg | rfl
    · exact hall g hg
    · exact hnew
  refine { h with
    ids := hset h.ids (h.ids f hf)
    awaited := fun i session now till hi => ?_
    unarmed := hset h.unarmed (h.unarmed f hf)
    won := hset (fun g hg now till hstmt r hr => ?_) fun now till hstmt r hr => ?_
    ahead := hset h.ahead (h.ahead f hf)
    held := hheld
    apart := hapart
    fired := fun hold hhold => (h.fired hold hhold).imp_left fun hwin => hsub hwin }
  · exact hset (h.awaited i session now till hi) (h.awaited i session now till hi f hf)
  · exact (h.won g hg now till hstmt r hr).imp_right fun hwin => hsub hwin
  · cases hr
    exact hwon now till hstmt

/-- A transaction takes effect. -/
theorem spaced_apply (h : Spaced c s wins fires) (k : Nat) :
    ∃ wins', Spaced c (s.apply k) wins' fires := by
  cases hf : s.flight[k]? with
  | none => exact ⟨wins, by simpa [State.apply, hf] using h⟩
  | some f =>
    have hmem : f ∈ s.flight := List.mem_of_getElem? hf
    obtain ⟨htasks, hnext, -⟩ := record_frame s f.stmt
    have hkept : ∀ {wins'}, Spaced c { s with
        table := (exec s.table f.stmt).1
        flight := s.flight.set k { f with result := some (exec s.table f.stmt).2 } } wins' fires →
          Spaced c (s.apply k) wins' fires := by
      intro wins' h'
      rw [apply_eq hf]
      exact h'.congr rfl rfl htasks hnext
    by_cases hclaim : ∃ now till, f.stmt = .claim c now till
    · obtain ⟨now, till, hstmt⟩ := hclaim
      have hahead := h.ahead f hmem now till hstmt
      have hexec := exec_claim s.table c now till
      rw [← hstmt] at hexec
      rcases hexec with heq | ⟨row, hlookup, hlapsed, heq⟩ <;> rw [heq] at hkept
      · exact ⟨wins, hkept (h.settle hmem (List.Subset.refl _) (fun _ _ _ => .inl rfl) h.held
          h.apart)⟩
      · -- the claim begins after all that took the row before had run out
        have hbefore : ∀ win ∈ wins, win.till < now :=
          fun win hwin => (h.held row hlookup win hwin).trans_lt hlapsed
        refine ⟨⟨f.id, now, till⟩ :: wins, hkept (h.settle hmem (List.subset_cons_self ..)
          (fun now' till' hstmt' => ?_) (fun row' hrow' win hwin => ?_) ?_)⟩
        · rw [hstmt] at hstmt'
          cases hstmt'
          exact .inr List.mem_cons_self
        · rw [AList.lookup_insert] at hrow'
          cases hrow'
          rcases List.mem_cons.mp hwin with rfl | hwin
          · exact le_rfl
          · exact (hbefore win hwin).le.trans hahead
        · exact List.pairwise_cons.mpr ⟨fun win hwin => .inr (hbefore win hwin), h.apart⟩
    · have hnot : ∀ now till, f.stmt ≠ .claim c now till :=
        fun now till hstmt => hclaim ⟨now, till, hstmt⟩
      refine ⟨wins, hkept (h.settle hmem (List.Subset.refl _)
        (fun now till hstmt => absurd hstmt (hnot now till)) (fun row hrow win hwin => ?_)
        h.apart)⟩
      obtain ⟨row', hlookup, heq⟩ := exec_claimDeadline s.table (h.unarmed f hmem) hnot hrow
      rw [← heq]
      exact h.held row' hlookup win hwin

/-- A sweep goes on to its next row, perhaps after it has fired one. -/
theorem spaced_nextRow (h : Spaced c s wins fires) (i n start now ttl : Nat)
    (todo : List Listed) : Spaced c (s.nextRow i n start now ttl todo) wins fires := by
  cases todo with
  | nil => exact h.endTask i
  | cons row todo =>
    refine h.issueQuiet i n (fun session now' till hclaim => ?_)
      (fun _ _ _ hstmt => by cases hstmt) fun now' till hstmt => ?_
    · cases hclaim
      rfl
    · cases hstmt
      exact Nat.le_add_right _ _

theorem spaced_fireRow (h : Spaced c s wins fires) (i n start now ttl : Nat) (row : Listed)
    (todo : List Listed) {more : Option Hold}
    (hmore : ∀ hold ∈ more, hold ∈ wins ∧ hold.id = (s.tasks i).stmt ∧
      (s.tasks i).job.claimOf.isSome) :
    Spaced c (s.fireRow i n start now ttl row todo) wins (more.toList ++ fires) := by
  unfold State.fireRow
  cases row.payload with
  | garbled =>
    exact h.issue hmore (fun _ _ _ hclaim => by cases hclaim) (fun _ _ _ hstmt => by cases hstmt)
      fun _ _ hstmt => by cases hstmt
  | will w =>
    have hs : Spaced c (s.issue i n (.firing start now ttl row todo) (.fire w row.arming)) wins
        (more.toList ++ fires) :=
      h.issue hmore (fun _ _ _ hclaim => by cases hclaim) (fun _ _ _ hstmt => by cases hstmt)
        fun _ _ hstmt => by cases hstmt
    exact hs.congr rfl rfl rfl rfl

/-- A task goes on; only one that waits for a claim, and is not refused it, fires. -/
theorem spaced_resume (h : Spaced c s wins fires) (i : Nat) {result : Option Result}
    {more : Option Hold} (hmore : ∀ hold ∈ more, hold ∈ wins ∧ hold.id = (s.tasks i).stmt ∧
      (s.tasks i).job.claimOf.isSome) (hzero : result = some (.affected 0) → more = none) :
    Spaced c (s.resume i result) wins (more.toList ++ fires) := by
  have hnone : (s.tasks i).job.claimOf = none → more = none := by
    intro hclaim
    cases more with
    | none => rfl
    | some hold =>
      have hsome := (hmore hold rfl).2.2
      rw [hclaim] at hsome
      cases hsome
  have hended : Spaced c (s.endTask i) wins fires := h.endTask i
  have hdelete : ∀ (armed : Nat → Node) (n : Nat) (session : String) (job : Job)
      (deleter : Deleter),
      job.claimOf = none →
        Spaced c (({ s with nodes := armed }).issue i n job (.delete session deleter)) wins
          fires := by
    intro armed n session job deleter hjob
    have hs : Spaced c { s with nodes := armed } wins fires := h.congr rfl rfl rfl rfl
    exact hs.issuePlain i n hjob (fun _ _ _ hstmt => by cases hstmt)
      fun _ _ _ hstmt => by cases hstmt
  unfold State.resume
  cases hjob : (s.tasks i).job with
  | arming session frame w =>
    rw [hnone (by rw [hjob]; rfl)]
    cases result with
    | none => exact hended
    | some r =>
      exact hended.congr rfl rfl rfl rfl
  | disarming frame =>
    rw [hnone (by rw [hjob]; rfl)]
    exact hended.congr rfl rfl rfl rfl
  | closing frame arming =>
    rw [hnone (by rw [hjob]; rfl)]
    exact hdelete _ _ _ _ _ rfl
  | retiring frame fired =>
    rw [hnone (by rw [hjob]; rfl)]
    cases fired with
    | false => exact hended
    | true => exact hended.congr rfl rfl rfl rfl
  | listing start now ttl =>
    rw [hnone (by rw [hjob]; rfl)]
    dsimp only
    split
    · exact spaced_nextRow h ..
    · exact hended
  | claiming start now ttl row todo =>
    dsimp only
    split_ifs with hrefused
    · rw [hzero hrefused]
      exact spaced_nextRow h ..
    · exact spaced_fireRow h _ _ _ _ _ _ _ hmore
  | firing start now ttl row todo =>
    rw [hnone (by rw [hjob]; rfl)]
    cases result with
    | none => exact spaced_nextRow h ..
    | some r => exact hdelete s.nodes _ _ _ _ rfl
  | consuming start now ttl todo =>
    rw [hnone (by rw [hjob]; rfl)]
    exact spaced_nextRow h ..
  | idle =>
    rw [hnone (by rw [hjob]; rfl)]
    exact h
  | ended =>
    rw [hnone (by rw [hjob]; rfl)]
    exact h

theorem spaced_resumeQuiet (h : Spaced c s wins fires) (i : Nat) (result : Option Result) :
    Spaced c (s.resume i result) wins fires := by
  have hnone : ∀ hold ∈ (none : Option Hold), hold ∈ wins ∧ hold.id = (s.tasks i).stmt ∧
      (s.tasks i).job.claimOf.isSome := fun _ hm => by cases hm
  exact spaced_resume h i hnone fun _ => rfl

/-- An answer to a claim that is not refused comes from one that has taken the row. -/
theorem fireOf_answer (h : Spaced c s wins fires) {i k : Nat} {hold : Hold}
    (hfire : fireOf c s (.answer i k) = some hold) :
    hold ∈ wins ∧ hold.id = (s.tasks i).stmt ∧ (s.tasks i).job.claimOf.isSome ∧
      ∃ f, s.flight[k]? = some f ∧ f.id = (s.tasks i).stmt ∧ f.result.isSome ∧
        f.result ≠ some (.affected 0) := by
  unfold fireOf at hfire
  dsimp only at hfire
  split at hfire
  · rename_i f start now ttl row todo hf hjob
    split_ifs at hfire with hcond
    cases hfire
    obtain ⟨hid, hsome, hne, hsession, _⟩ := hcond
    have hmem : f ∈ s.flight := List.mem_of_getElem? hf
    have hclaim : (s.tasks i).job.claimOf = some (c, now, now + ttl) := by
      rw [hjob, ← hsession]
      rfl
    have hstmt := h.awaited i c now (now + ttl) hclaim f hmem hid
    obtain ⟨r, hr⟩ := Option.isSome_iff_exists.mp hsome
    refine ⟨?_, hid, by rw [hclaim]; rfl, f, hf, hid, hsome, hne⟩
    rcases h.won f hmem now (now + ttl) hstmt r hr with rfl | hwin
    · exact absurd hr hne
    · exact hwin
  · cases hfire

/-- A frame of another session. -/
theorem spaced_frame (h : Spaced c s wins fires) (i : Nat) {client : Nat}
    (hc : s.session client ≠ c) (w : Will) (now : Nat) (allowed : Bool) :
    Spaced c (s.frame i client w now allowed) wins fires := by
  have hsame : ∀ {t : State}, t.table = s.table → t.flight = s.flight → t.tasks = s.tasks →
      t.nextStmt = s.nextStmt → Spaced c t wins fires := fun h₁ h₂ h₃ h₄ => h.congr h₁ h₂ h₃ h₄
  obtain heq | ⟨armed, heq⟩ | ⟨will, deadline, heq⟩ | ⟨will, heq⟩ :=
    frame_cases s i client w now allowed
  all_goals rw [heq]
  · exact hsame rfl rfl rfl rfl
  · refine Spaced.issuePlain ?_ _ _ rfl ?_ fun _ _ _ hstmt => by cases hstmt
    · exact hsame rfl rfl rfl rfl
    · exact fun _ _ _ hstmt => by cases hstmt
  · refine Spaced.issuePlain ?_ _ _ rfl ?_ fun _ _ _ hstmt => by cases hstmt
    · exact hsame rfl rfl rfl rfl
    · intro deadline' w' frame hstmt
      exact hc (Stmt.arm.inj hstmt).1
  · exact hsame rfl rfl rfl rfl

theorem spaced_step (h : Spaced c s wins fires) {m : Move} (horphaned : Orphaned c s m) :
    ∃ wins', Spaced c (s.step m) wins' ((fireOf c s m).toList ++ fires) := by
  have hsame : ∀ {t : State}, t.table = s.table → t.flight = s.flight → t.tasks = s.tasks →
      t.nextStmt = s.nextStmt → Spaced c t wins fires := fun h₁ h₂ h₃ h₄ => h.congr h₁ h₂ h₃ h₄
  cases m with
  | frame i c' w now allowed =>
    refine ⟨wins, ?_⟩
    simp only [State.step]
    split_ifs
    · exact spaced_frame h i horphaned w now allowed
    · exact h
  | close i c' =>
    refine ⟨wins, ?_⟩
    simp only [State.step]
    split_ifs
    · unfold State.close
      cases (s.sessions c').will with
      | none => exact h
      | some will =>
        change Spaced c (State.issue _ _ _ _ _) wins fires
        refine Spaced.issuePlain ?_ _ _ rfl ?_ fun _ _ _ hstmt => by cases hstmt
        · exact hsame rfl rfl rfl rfl
        · exact fun _ _ _ hstmt => by cases hstmt
    · exact h
  | sweep i n now ttl =>
    refine ⟨wins, ?_⟩
    simp only [State.step]
    split_ifs
    · change Spaced c (State.issue _ _ _ _ _) wins fires
      refine Spaced.issuePlain ?_ _ _ rfl ?_ fun _ _ _ hstmt => by cases hstmt
      · exact hsame rfl rfl rfl rfl
      · exact fun _ _ _ hstmt => by cases hstmt
    · exact h
  | refresh n deadline =>
    refine ⟨wins, ?_⟩
    simp only [State.step]
    split_ifs
    · unfold State.refresh
      split_ifs
      · exact h
      · exact h.push (fun _ _ _ hstmt => by cases hstmt) fun _ _ hstmt => by cases hstmt
    · exact h
  | apply k => exact spaced_apply h k
  | answer i k =>
    refine ⟨wins, ?_⟩
    simp only [State.step, State.answered]
    cases hfire : fireOf c s (.answer i k) with
    | some hold =>
      obtain ⟨hwin, hid, hclaims, f, hf, hfid, hsome, hne⟩ := fireOf_answer h hfire
      rw [hf]
      dsimp only
      rw [if_pos ⟨hfid, hsome⟩]
      refine spaced_resume h i (fun hold' hm => ?_) fun hzero => absurd hzero hne
      cases hm
      exact ⟨hwin, hid, hclaims⟩
    | none =>
      have hresume := spaced_resumeQuiet h i
      cases s.flight[k]? with
      | none => exact h
      | some f =>
        dsimp only
        split_ifs
        · exact hresume _
        · exact h
  | fail i =>
    exact ⟨wins, spaced_resumeQuiet h i none⟩
  | name n tag =>
    refine ⟨wins, ?_⟩
    simp only [State.step]
    split_ifs
    · exact hsame rfl rfl rfl rfl
    · exact h
  | crash n =>
    have hends : Spaced c { s with
        tasks := fun i =>
          if (s.tasks i).node = n ∧ (s.tasks i).job.isIdle = false then
            { s.tasks i with job := .ended }
          else s.tasks i } wins fires := h.ends fun j => by
      split_ifs
      · exact .inr rfl
      · exact .inl rfl
    exact ⟨wins, hends.congr rfl rfl rfl rfl⟩

/-- How often sweeps have fired a will of the session. -/
def firedOf (c : String) (s : State) : Nat := s.fires.countP fun fire => fire.1 = c

theorem nextRow_fires (s : State) (i n start now ttl : Nat) (todo : List Listed) :
    (s.nextRow i n start now ttl todo).fires = s.fires := by
  cases todo <;> rfl

theorem resume_fires_claiming {i start now ttl : Nat} {row : Listed} {todo : List Listed}
    (hjob : (s.tasks i).job = .claiming start now ttl row todo) {result : Option Result}
    (hne : result ≠ some (.affected 0)) : (s.resume i result).fires =
      if row.payload = .garbled then s.fires
      else (row.session, row.arming, start) :: s.fires := by
  unfold State.resume
  rw [hjob]
  dsimp only
  rw [if_neg hne]
  unfold State.fireRow
  cases row.payload with
  | garbled => rfl
  | will w => rfl

/-- Only a claim's answer makes a sweep fire. -/
theorem resume_fires_other {i : Nat} {result : Option Result}
    (h : ∀ start now ttl row todo, (s.tasks i).job = .claiming start now ttl row todo →
      result = some (.affected 0)) : (s.resume i result).fires = s.fires := by
  unfold State.resume
  cases hjob : (s.tasks i).job with
  | arming session frame w => cases result <;> rfl
  | disarming frame => rfl
  | closing frame arming => rfl
  | retiring frame fired => cases fired <;> rfl
  | listing start now ttl =>
    dsimp only
    split
    · exact nextRow_fires ..
    · rfl
  | claiming start now ttl row todo =>
    dsimp only
    rw [if_pos (h start now ttl row todo hjob)]
    exact nextRow_fires ..
  | firing start now ttl row todo =>
    cases result with
    | none => exact nextRow_fires ..
    | some r => rfl
  | consuming start now ttl todo => exact nextRow_fires ..
  | idle => rfl
  | ended => rfl

/-- A task that does not fire the session's will leaves its count. -/
theorem firedOf_resume {i : Nat} {result : Option Result}
    (h : ∀ start now ttl row todo, (s.tasks i).job = .claiming start now ttl row todo →
      result ≠ some (.affected 0) → row.session = c → row.payload = .garbled) :
    firedOf c (s.resume i result) = firedOf c s := by
  unfold firedOf
  by_cases hclaim : ∃ start now ttl row todo,
      (s.tasks i).job = .claiming start now ttl row todo ∧ result ≠ some (.affected 0)
  · obtain ⟨start, now, ttl, row, todo, hjob, hne⟩ := hclaim
    rw [resume_fires_claiming hjob hne]
    split_ifs with hgarbled
    · rfl
    · have hother : row.session ≠ c := fun hc => hgarbled (h start now ttl row todo hjob hne hc)
      simp [hother]
  · rw [resume_fires_other fun start now ttl row todo hjob => ?_]
    by_contra hne
    exact hclaim ⟨start, now, ttl, row, todo, hjob, hne⟩

/-- An answer counts when it lets a sweep fire. -/
theorem firedOf_answered (c : String) (s : State) (i k : Nat) :
    firedOf c (s.answered i k) = (fireOf c s (.answer i k)).toList.length + firedOf c s := by
  unfold State.answered
  cases hf : s.flight[k]? with
  | none => simp [fireOf, hf]
  | some f =>
    dsimp only
    by_cases hanswer : f.id = (s.tasks i).stmt ∧ f.result.isSome
    · rw [if_pos hanswer]
      by_cases hclaim : ∃ start now ttl row todo, (s.tasks i).job = .claiming start now ttl row todo
      · obtain ⟨start, now, ttl, row, todo, hjob⟩ := hclaim
        by_cases hfires : f.result ≠ some (.affected 0) ∧ row.session = c ∧ row.payload ≠ .garbled
        · obtain ⟨hne, hsession, hpayload⟩ := hfires
          have hfire : fireOf c s (.answer i k) = some ⟨f.id, now, now + ttl⟩ := by
            simp only [fireOf, hf, hjob]
            rw [if_pos ⟨hanswer.1, hanswer.2, hne, hsession, hpayload⟩]
          have hfires := resume_fires_claiming hjob hne
          rw [if_neg hpayload] at hfires
          rw [hfire]
          simp [firedOf, hfires, hsession, Nat.add_comm]
        · have hfire : fireOf c s (.answer i k) = none := by
            simp only [fireOf, hf, hjob]
            exact if_neg fun hcond => hfires hcond.2.2
          rw [hfire, firedOf_resume fun start' now' ttl' row' todo' hjob' hne hsession => ?_]
          · simp
          · rw [hjob] at hjob'
            cases hjob'
            by_contra hpayload
            exact hfires ⟨hne, hsession, hpayload⟩
      · have hfire : fireOf c s (.answer i k) = none := by
          unfold fireOf
          dsimp only
          split
          · rename_i start now ttl row todo _ hjob
            exact absurd ⟨start, now, ttl, row, todo, hjob⟩ hclaim
          · rfl
        rw [hfire, firedOf_resume fun start now ttl row todo hjob _ _ =>
          absurd ⟨start, now, ttl, row, todo, hjob⟩ hclaim]
        simp
    · have hfire : fireOf c s (.answer i k) = none := by
        unfold fireOf
        dsimp only
        split
        · rename_i f' start now ttl row todo hf' _
          rw [hf] at hf'
          cases hf'
          exact if_neg fun hcond => hanswer ⟨hcond.1, hcond.2.1⟩
        · rfl
      rw [if_neg hanswer, hfire]
      simp

/-- Every firing of an orphaned will is counted by `fireOf`. -/
theorem firedOf_step (s : State) {m : Move} (horphaned : Orphaned c s m) :
    firedOf c (s.step m) = (fireOf c s m).toList.length + firedOf c s := by
  have hsame : ∀ {t : State}, t.fires = s.fires → firedOf c t = 0 + firedOf c s := by
    intro t ht
    rw [firedOf, ht, firedOf, Nat.zero_add]
  cases m with
  | frame i c' w now allowed =>
    refine hsame ?_
    simp only [State.step]
    split_ifs
    · obtain heq | ⟨armed, heq⟩ | ⟨will, deadline, heq⟩ | ⟨will, heq⟩ :=
        frame_cases s i c' w now allowed
      all_goals rw [heq]; rfl
    · rfl
  | close i c' =>
    refine hsame ?_
    simp only [State.step]
    split_ifs
    · unfold State.close
      cases (s.sessions c').will <;> rfl
    · rfl
  | sweep i n now ttl =>
    refine hsame ?_
    simp only [State.step]
    split_ifs <;> rfl
  | refresh n deadline =>
    refine hsame ?_
    simp only [State.step]
    split_ifs
    · unfold State.refresh
      split_ifs <;> rfl
    · rfl
  | apply k =>
    refine hsame ?_
    cases hf : s.flight[k]? with
    | none => simp [State.step, State.apply, hf]
    | some f =>
      obtain ⟨-, -, -, -, -, hfires⟩ := record_frame s f.stmt
      rw [State.step, apply_eq hf]
      exact hfires
  | answer i k => exact firedOf_answered c s i k
  | fail i =>
    have hcount : firedOf c (s.resume i none) = firedOf c s :=
      firedOf_resume fun start now ttl row todo hjob _ hsession =>
        absurd hsession (horphaned row.session now (now + ttl) (by rw [hjob]; rfl))
    exact hcount.trans (Nat.zero_add _).symm
  | name n tag =>
    refine hsame ?_
    simp only [State.step]
    split_ifs <;> rfl
  | crash n => exact hsame rfl

theorem spaced_run {moves : List Move} (h : Spaced c s wins fires)
    (horphaned : Runs.Guarded State.step (Orphaned c) s moves) :
    ∃ wins', Spaced c (Runs.run State.step s moves) wins'
      ((firesIn c s moves).reverse ++ fires) := by
  induction moves generalizing s wins fires with
  | nil => exact ⟨wins, h⟩
  | cons m moves ih =>
    obtain ⟨hm, hmoves⟩ := horphaned
    obtain ⟨wins', hstep⟩ := spaced_step h hm
    obtain ⟨wins'', hrun⟩ := ih hstep hmoves
    refine ⟨wins'', ?_⟩
    have hlist : (firesIn c s (m :: moves)).reverse ++ fires =
        (firesIn c (s.step m) moves).reverse ++ ((fireOf c s m).toList ++ fires) := by
      cases hfire : fireOf c s m <;> simp [firesIn, hfire]
    rw [hlist]
    exact hrun

theorem firedOf_run {moves : List Move}
    (horphaned : Runs.Guarded State.step (Orphaned c) s moves) :
    firedOf c (Runs.run State.step s moves) = (firesIn c s moves).length + firedOf c s := by
  induction moves generalizing s with
  | nil => exact (Nat.zero_add _).symm
  | cons m moves ih =>
    obtain ⟨hm, hmoves⟩ := horphaned
    have hrun := ih hmoves
    rw [firedOf_step s hm] at hrun
    simp only [firesIn, List.length_append]
    exact hrun.trans (by omega)

theorem spaced_start (c : String) (table : Table) (nodes : Nat → Node) (homes conns : Nat → Nat) :
    Spaced c (start table nodes homes conns) [] [] := by
  constructor
  · exact fun _ hf => absurd hf List.not_mem_nil
  · exact fun i hi => absurd hi Bool.false_ne_true
  · exact fun i j _ hi => absurd hi Bool.false_ne_true
  · intro i session now till hi
    cases hi
  · exact fun _ hf => absurd hf List.not_mem_nil
  · exact fun _ hf => absurd hf List.not_mem_nil
  · exact fun _ hf => absurd hf List.not_mem_nil
  · exact fun _ _ _ hwin => absurd hwin List.not_mem_nil
  · exact List.Pairwise.nil
  · exact fun _ hhold => absurd hhold List.not_mem_nil
  · exact fun _ _ _ hhold => absurd hhold List.not_mem_nil
  · exact List.nodup_nil

theorem Spaced.fires_apart (h : Spaced c s wins fires) : fires.Pairwise Apart := by
  have hne : fires.Pairwise fun a b => a ≠ b := List.Nodup.of_map Hold.id h.nodup
  refine hne.imp_of_mem fun {a b} ha hb hab => ?_
  exact h.apart.forall (h.fired a ha).1 (h.fired b hb).1 hab

/-- While a session's connection is gone, and no claim of its row fails, of two sweeps that fire
its will one began after the other's claim had run out, and no sweep fires it without a claim. -/
theorem orphaned_will_fires_apart (table : Table) (nodes : Nat → Node) (homes conns : Nat → Nat)
    (c : String) (moves : List Move)
    (horphaned : Runs.Guarded State.step (Orphaned c) (start table nodes homes conns) moves) :
    (firesIn c (start table nodes homes conns) moves).Pairwise Apart ∧
      firedOf c (Runs.run State.step (start table nodes homes conns) moves) =
        (firesIn c (start table nodes homes conns) moves).length := by
  obtain ⟨wins, hrun⟩ := spaced_run (spaced_start c table nodes homes conns) horphaned
  rw [List.append_nil] at hrun
  refine ⟨?_, firedOf_run horphaned⟩
  have hapart := List.pairwise_reverse.mp hrun.fires_apart
  exact hapart.imp fun hab => hab.symm

/-- The row of a session that crashed. -/
def lapsedRow : Table :=
  (∅ : Table).insert "27c03b26b1-7"
    ⟨0, 0, .will { objects := ["lock"], ops := [⟨"lock", "DELETE"⟩] }, ⟨7, 0⟩⟩

/-- Two sweeps list the row. One claims it and the other is refused; the will's transaction fails,
and a third sweep claims the row again. -/
def reclaimed : List Move :=
  [.sweep 0 0 100 50, .sweep 1 1 110 50, .apply 0, .apply 1, .answer 0 1, .answer 1 1, .apply 1,
    .apply 0, .answer 0 1, .answer 1 1, .fail 0, .sweep 2 1 200 50, .apply 0, .answer 2 0,
    .apply 0, .answer 2 0]

theorem orphaned_will_fires_apart_reclaimed :
    firesIn "27c03b26b1-7" (start lapsedRow named (fun _ => 0) id) reclaimed =
        [⟨2, 100, 150⟩, ⟨6, 200, 250⟩] ∧
      (firesIn "27c03b26b1-7" (start lapsedRow named (fun _ => 0) id) reclaimed).Pairwise Apart ∧
      firedOf "27c03b26b1-7"
          (Runs.run State.step (start lapsedRow named (fun _ => 0) id) reclaimed) =
        (firesIn "27c03b26b1-7" (start lapsedRow named (fun _ => 0) id) reclaimed).length := by
  refine ⟨by decide, orphaned_will_fires_apart lapsedRow named (fun _ => 0) id
    "27c03b26b1-7" reclaimed
    ⟨trivial, trivial, trivial, trivial, trivial, trivial, trivial, trivial, trivial, trivial, ?_,
      trivial, trivial, trivial, trivial, trivial, trivial⟩⟩
  intro session now till hclaim
  cases hclaim

end Fafo.Wills
