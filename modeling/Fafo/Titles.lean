import Fafo.Library.Runs
import Fafo.Ownership

/-! An object's title: who may own it, and what memories, checkpoints and the record say of it. -/
namespace Fafo.Ownership

variable {ι : Type}

namespace Event

def worker : Event ι → Nat
  | admitted w _ _ | released w _ _ => w

def object : Event ι → ι
  | admitted _ o _ | released _ o _ => o

def generation : Event ι → Nat
  | admitted _ _ g | released _ _ g => g

end Event

/-- At most one worker has an object in `owned`. -/
def SingleOwner (s : State ι) : Prop :=
  ∀ o v w, ((s.workers v).memory.owned o).isSome → ((s.workers w).memory.owned o).isSome → v = w

/-- What a worker admits is newer than all it admitted or released of the object before. -/
def Ascending (history : List (Event ι)) : Prop :=
  history.Pairwise fun later earlier => ∀ w o g, later = .admitted w o g →
    earlier.worker = w → earlier.object = o → earlier.generation < g

def OneSpend (s : State ι) : Prop := SingleOwner s ∧ Ascending s.history

/-- The worker's memory has the object at this generation or a later one. -/
def Knows (s : State ι) (w : Nat) (o : ι) (g : Nat) : Prop :=
  ∃ k, known (s.workers w).memory o = some k ∧ g ≤ k

/-- The memory of the deed's giver stands behind it, or its addressee knows better. -/
def Stands (s : State ι) (w : Nat) (o : ι) (g : Nat) : Prop :=
  Knows s w o g ∨ ∃ a, (s.workers a).memory.transit o = some (w, g)

/-- A worker acts on a deed only while it stands, and reclaims one only if the taker has not taken
it through the durable marker. -/
def Backed (s : State ι) (m : Move ι × Env) : Prop :=
  match m.1 with
  | .adopt i => ∀ d, s.deeds[i]? = some d → (s.workers d.dest).await = .idle →
      Stands s d.dest d.object d.tm.generation
  | .taken i => ∀ d, s.deeds[i]? = some d → (s.workers d.dest).await = .idle →
      (s.workers d.dest).memory.owned d.object = none → Stands s d.dest d.object d.tm.generation
  | .read w => ∀ taker scan g, (s.workers w).await = .claiming taker scan → scan.todo = [] →
      scan.best = some (.transit w g) → Stands s w scan.object g
  | .reply w false => ∀ o taker tm, (s.workers w).await = .granting o taker tm →
      ¬ Knows s taker o tm.generation
  | _ => True

/-- Where the right to an object is. -/
inductive Title where
  | fresh
  | held (worker generation : Nat)
  | moving (giver dest generation : Nat)
  deriving DecidableEq

def Title.generation : Title → Nat
  | fresh => 0
  | held _ g | moving _ _ g => g

/-- What the workers' memories, their checkpoints and the record say of an object whose title is
this. -/
structure Recorded (layout : Layout ι) (s : State ι) (o : ι) (T : Title) : Prop where
  owned_iff : ∀ w g, (s.workers w).memory.owned o = some g ↔ T = .held w g
  transit_of_owned : ∀ w, (s.workers w).memory.owned o ≠ none →
    (s.workers w).memory.transit o = none
  known_le : ∀ w k, known (s.workers w).memory o = some k → 1 ≤ k ∧ k ≤ T.generation
  renounced : ∀ w d g, (s.workers w).memory.transit o = some (d, g) →
    d ≠ w ∧ .released w o g ∈ s.history ∧ (Knows s d o g ∨ T = .moving w d g)
  home : T ≠ .fresh → known (s.workers (layout.defaultWorker o)).memory o ≠ none
  synced : ∀ w, (s.workers w).memory.owned o = none →
    (s.checkpoints.lookup w = none → (s.workers w).memory.transit o = none) ∧
      ∀ cp, s.checkpoints.lookup w = some cp →
        cp.owned o = none ∧ cp.transit o = (s.workers w).memory.transit o
  marker : ∀ w cp d g, s.checkpoints.lookup w = some cp → cp.transit o = some (d, g) →
    .released w o g ∈ s.history ∨ ∃ h, T = .held w h ∧ g = h + 1
  remembered : ∀ e ∈ s.history, e.object = o → Knows s e.worker o e.generation
  released_unique : ∀ v w g, .released v o g ∈ s.history → .released w o g ∈ s.history → v = w

/-- What a worker's own record says of an object, at the await where it stands. -/
structure Poised (w : Nat) (worker : Worker ι) (o : ι) : Prop where
  queued : ∀ taker ∈ worker.queues o, taker ≠ w ∧ worker.memory.owned o ≠ none
  returning : ∀ m home, worker.metas o = some m → m.returnTo = some home →
    worker.memory.owned o ≠ none
  awaiting : match worker.await with
    | .idle => True
    | .claiming taker scan => scan.object = o →
        taker ≠ w ∧ worker.memory.owned o = none ∧ ∀ g, scan.best ≠ some (.owned w g)
    | .reconciling tm _ scan => scan.object = o →
        worker.memory.owned o = none ∧ ∃ d cur, worker.memory.transit o = some (d, cur) ∧
          tm.generation ≤ cur ∧ (∀ g, scan.best ≠ some (.owned w g)) ∧
          scan.best ≠ some (.transit w cur) ∧
          (w ∈ scan.todo ∨ ∃ c, scan.best = some c ∧ (Claim.transit d cur).rank ≤ c.rank)
    | .granting object taker tm => object = o →
        worker.memory.owned o = none ∧ worker.memory.transit o = some (taker, tm.generation)

structure Sound (layout : Layout ι) (s : State ι) : Prop where
  recorded : ∀ o, ∃ T, Recorded layout s o T
  poised : ∀ w o, Poised w (s.workers w) o
  ascending : Ascending s.history

theorem Sound.oneSpend {layout : Layout ι} {s : State ι} (h : Sound layout s) : OneSpend s := by
  refine ⟨fun o v w hv hw => ?_, h.ascending⟩
  obtain ⟨T, hT⟩ := h.recorded o
  obtain ⟨g, hg⟩ := Option.isSome_iff_exists.mp hv
  obtain ⟨g', hg'⟩ := Option.isSome_iff_exists.mp hw
  have heq : Title.held v g = .held w g' := ((hT.owned_iff v g).mp hg).symm.trans
    ((hT.owned_iff w g').mp hg')
  cases heq
  rfl

theorem sound_initial (layout : Layout ι) : Sound layout ({} : State ι) where
  recorded o := ⟨.fresh, by constructor <;> simp [known, AList.lookup_empty]⟩
  poised w o := by constructor <;> simp
  ascending := .nil

section Known

variable {memory : Checkpoint ι} {o p : ι} {d g : Nat}

theorem known_congr {memory' : Checkpoint ι} (howned : memory'.owned o = memory.owned o)
    (htransit : memory'.transit o = memory.transit o) : known memory' o = known memory o := by
  rw [known, known, howned, htransit]

theorem known_of_owned (ho : memory.owned o = some g) (ht : memory.transit o = none) :
    known memory o = some g := by
  rw [known, ho, ht]

theorem known_of_transit (ho : memory.owned o = none) (ht : memory.transit o = some (d, g)) :
    known memory o = some g := by
  rw [known, ho, ht]

variable [DecidableEq ι]

@[simp] theorem hold_owned : (hold memory o g).owned o = some g := Function.update_self ..
@[simp] theorem hold_transit : (hold memory o g).transit o = none := Function.update_self ..

@[simp] theorem known_hold : known (hold memory o g) o = some g :=
  known_of_owned hold_owned hold_transit

theorem hold_of_ne (memory : Checkpoint ι) (h : p ≠ o) :
    (hold memory o g).owned p = memory.owned p ∧
    (hold memory o g).transit p = memory.transit p :=
  ⟨Function.update_of_ne h .., Function.update_of_ne h ..⟩

@[simp] theorem renounce_owned : (renounce memory o d g).owned o = none := Function.update_self ..
@[simp] theorem renounce_transit : (renounce memory o d g).transit o = some (d, g) :=
  Function.update_self ..

@[simp] theorem known_renounce : known (renounce memory o d g) o = some g :=
  known_of_transit renounce_owned renounce_transit

theorem renounce_of_ne (memory : Checkpoint ι) (h : p ≠ o) :
    (renounce memory o d g).owned p = memory.owned p ∧
    (renounce memory o d g).transit p = memory.transit p :=
  ⟨Function.update_of_ne h .., Function.update_of_ne h ..⟩

end Known

section Title

variable {layout : Layout ι} {s s' : State ι} {o : ι} {T : Title} {w g : Nat}

/-- What a step leaves alone: the object's memory at the other workers, and all checkpoints but one.
-/
structure Elsewhere (s s' : State ι) (w : Nat) (o : ι) : Prop where
  owned : ∀ v, v ≠ w → (s'.workers v).memory.owned o = (s.workers v).memory.owned o
  transit : ∀ v, v ≠ w → (s'.workers v).memory.transit o = (s.workers v).memory.transit o
  checkpoints : ∀ v, v ≠ w → s'.checkpoints.lookup v = s.checkpoints.lookup v

theorem Elsewhere.knows (h : Elsewhere s s' w o) {v : Nat} (hne : v ≠ w) {c : Nat} :
    Knows s' v o c ↔ Knows s v o c := by
  rw [Knows, Knows, known_congr (h.owned v hne) (h.transit v hne)]

/-- Nothing about the object changes, save that its worker may write its checkpoint. -/
theorem Recorded.frame (h : Recorded layout s o T) (helse : Elsewhere s s' w o)
    (howned : (s'.workers w).memory.owned o = (s.workers w).memory.owned o)
    (htransit : (s'.workers w).memory.transit o = (s.workers w).memory.transit o)
    (hcp : s'.checkpoints.lookup w = s.checkpoints.lookup w ∨
      ∃ cp, s'.checkpoints.lookup w = some cp ∧ cp.owned o = (s.workers w).memory.owned o ∧
        cp.transit o = (s.workers w).memory.transit o)
    (hhistory : ∀ e, e.object = o → (e ∈ s'.history ↔ e ∈ s.history)) :
    Recorded layout s' o T := by
  have howned' : ∀ v, (s'.workers v).memory.owned o = (s.workers v).memory.owned o := fun v => by
    by_cases hv : v = w
    · rw [hv, howned]
    · exact helse.owned v hv
  have htransit' : ∀ v, (s'.workers v).memory.transit o = (s.workers v).memory.transit o :=
    fun v => by
      by_cases hv : v = w
      · rw [hv, htransit]
      · exact helse.transit v hv
  have hknown : ∀ v, known (s'.workers v).memory o = known (s.workers v).memory o :=
    fun v => known_congr (howned' v) (htransit' v)
  have hcp' : ∀ v, s'.checkpoints.lookup v = s.checkpoints.lookup v ∨
      ∃ cp, s'.checkpoints.lookup v = some cp ∧ cp.owned o = (s.workers v).memory.owned o ∧
        cp.transit o = (s.workers v).memory.transit o := fun v => by
    by_cases hv : v = w
    · exact hv ▸ hcp
    · exact .inl (helse.checkpoints v hv)
  constructor
  case owned_iff => simpa only [howned'] using h.owned_iff
  case transit_of_owned => simpa only [howned', htransit'] using h.transit_of_owned
  case known_le => simpa only [hknown] using h.known_le
  case renounced =>
    intro v d c hv
    rw [htransit'] at hv
    obtain ⟨hne, hrel, hknows⟩ := h.renounced v d c hv
    exact ⟨hne, (hhistory _ rfl).mpr hrel, by simpa only [Knows, hknown] using hknows⟩
  case home => simpa only [hknown] using h.home
  case synced =>
    intro v hv
    rw [howned'] at hv
    rw [htransit']
    rcases hcp' v with heq | ⟨cp, heq, ho, ht⟩
    · simpa only [heq] using h.synced v hv
    · rw [heq]
      refine ⟨nofun, fun cp' hcp' => ?_⟩
      cases hcp'
      exact ⟨ho.trans hv, ht⟩
  case marker =>
    intro v cp d c hl ht
    rw [hhistory _ rfl]
    rcases hcp' v with heq | ⟨cp', heq, _, ht'⟩
    · exact h.marker v cp d c (heq ▸ hl) ht
    · rw [heq] at hl
      cases hl
      exact .inl (h.renounced v d c (ht' ▸ ht)).2.1
  case remembered =>
    intro e he ho
    simpa only [Knows, hknown] using h.remembered e ((hhistory e ho).mp he) ho
  case released_unique =>
    intro v v' c hv hv'
    exact h.released_unique v v' c ((hhistory _ rfl).mp hv) ((hhistory _ rfl).mp hv')

/-- A worker may take a title that nobody holds: a fresh one at home, and one that moves to it or
that it gave away. -/
def Title.Open (layout : Layout ι) (o : ι) (w g : Nat) : Title → Prop
  | .fresh => layout.defaultWorker o = w
  | .held .. => False
  | .moving a d c => (a = w ∨ d = w) ∧ c ≤ g

theorem Title.Open.not_held (h : T.Open layout o w g) {v c : Nat} : T ≠ .held v c := by
  rintro rfl
  exact h

theorem Title.Open.generation_le (h : T.Open layout o w g) : T.generation ≤ g := by
  cases T with
  | fresh => exact Nat.zero_le g
  | held => exact h.elim
  | moving => exact h.2

theorem Recorded.hold (h : Recorded layout s o T) (helse : Elsewhere s s' w o)
    (hopen : T.Open layout o w g) (hnew : ∀ k, known (s.workers w).memory o = some k → k < g)
    (hpos : 1 ≤ g)
    (howned : (s'.workers w).memory.owned o = some g)
    (htransit : (s'.workers w).memory.transit o = none)
    (hcp : s'.checkpoints.lookup w = s.checkpoints.lookup w ∨
      ∃ cp, s'.checkpoints.lookup w = some cp ∧ cp.transit o = none)
    (hhistory : ∀ e, e.object = o → (e ∈ s'.history ↔ e = .admitted w o g ∨ e ∈ s.history)) :
    Recorded layout s' o (.held w g) := by
  have hnone : ∀ v, (s.workers v).memory.owned o = none := fun v =>
    Option.eq_none_iff_forall_ne_some.mpr fun c hc => hopen.not_held ((h.owned_iff v c).mp hc)
  have hself : known (s'.workers w).memory o = some g := known_of_owned howned htransit
  have hknows : ∀ v c, Knows s v o c → Knows s' v o c := by
    rintro v c ⟨k, hk, hc⟩
    by_cases hv : v = w
    · subst hv
      exact ⟨g, hself, hc.trans (hnew k hk).le⟩
    · exact (helse.knows hv).mpr ⟨k, hk, hc⟩
  have hreleased : ∀ v c, .released v o c ∈ s'.history ↔ .released v o c ∈ s.history :=
    fun v c => (hhistory _ rfl).trans (or_iff_right nofun)
  constructor
  case owned_iff =>
    intro v c
    by_cases hv : v = w
    · subst hv
      rw [howned]
      constructor
      · rintro ⟨⟩; rfl
      · rintro ⟨⟩; rfl
    · rw [helse.owned v hv, hnone]
      exact ⟨nofun, fun heq => by cases heq; exact absurd rfl hv⟩
  case transit_of_owned =>
    intro v hv
    by_cases hvw : v = w
    · exact hvw ▸ htransit
    · exact absurd (hnone v) (helse.owned v hvw ▸ hv)
  case known_le =>
    intro v k hk
    by_cases hv : v = w
    · subst hv
      rw [hself] at hk
      cases hk
      exact ⟨hpos, le_rfl⟩
    · rw [known_congr (helse.owned v hv) (helse.transit v hv)] at hk
      exact ⟨(h.known_le v k hk).1, (h.known_le v k hk).2.trans hopen.generation_le⟩
  case renounced =>
    intro v d c hv
    by_cases hvw : v = w
    · rw [hvw, htransit] at hv
      cases hv
    · rw [helse.transit v hvw] at hv
      obtain ⟨hne, hrel, hknows' | rfl⟩ := h.renounced v d c hv
      · exact ⟨hne, (hreleased v c).mpr hrel, .inl (hknows d c hknows')⟩
      · obtain rfl : d = w := hopen.1.resolve_left hvw
        exact ⟨hne, (hreleased v c).mpr hrel, .inl ⟨g, hself, hopen.2⟩⟩
  case home =>
    intro _
    by_cases hv : layout.defaultWorker o = w
    · rw [hv, hself]
      exact nofun
    · rw [known_congr (helse.owned _ hv) (helse.transit _ hv)]
      exact h.home fun hfresh => hv (by rw [hfresh] at hopen; exact hopen)
  case synced =>
    intro v hv
    by_cases hvw : v = w
    · rw [hvw, howned] at hv
      cases hv
    · rw [helse.transit v hvw, helse.checkpoints v hvw]
      exact h.synced v (hnone v)
  case marker =>
    intro v cp d c hl ht
    left
    by_cases hvw : v = w
    · subst hvw
      rcases hcp with heq | ⟨cp', heq, ht'⟩
      · rw [heq] at hl
        exact (hreleased v c).mpr ((h.marker v cp d c hl ht).resolve_right
          fun ⟨k, hk, _⟩ => hopen.not_held hk)
      · rw [heq] at hl
        cases hl
        rw [ht'] at ht
        cases ht
    · rw [helse.checkpoints v hvw] at hl
      exact (hreleased v c).mpr ((h.marker v cp d c hl ht).resolve_right
        fun ⟨k, hk, _⟩ => hopen.not_held hk)
  case remembered =>
    intro e he ho
    rcases (hhistory e ho).mp he with rfl | he
    · exact ⟨g, hself, le_rfl⟩
    · exact hknows _ _ (h.remembered e he ho)
  case released_unique =>
    intro v v' c hv hv'
    exact h.released_unique v v' c ((hreleased v c).mp hv) ((hreleased v' c).mp hv')

/-- The holder renounces, durably, at the next generation. -/
theorem Recorded.renounce (h : Recorded layout s o (.held w g)) (helse : Elsewhere s s' w o)
    {d : Nat} (hd : d ≠ w) (howned : (s'.workers w).memory.owned o = none)
    (htransit : (s'.workers w).memory.transit o = some (d, g + 1))
    (hcp : ∃ cp, s'.checkpoints.lookup w = some cp ∧ cp.owned o = none ∧
      cp.transit o = some (d, g + 1))
    (hhistory : ∀ e, e.object = o →
      (e ∈ s'.history ↔ e = .released w o (g + 1) ∨ e ∈ s.history)) :
    Recorded layout s' o (.moving w d (g + 1)) := by
  obtain ⟨cp, hlookup, hcpo, hcpt⟩ := hcp
  have hheld : (s.workers w).memory.owned o = some g := (h.owned_iff w g).mpr rfl
  have hnone : ∀ v, v ≠ w → (s.workers v).memory.owned o = none := fun v hv =>
    Option.eq_none_iff_forall_ne_some.mpr fun c hc => by
      cases (h.owned_iff v c).mp hc
      exact hv rfl
  have hwas : known (s.workers w).memory o = some g :=
    known_of_owned hheld (h.transit_of_owned w (by simp [hheld]))
  have hself : known (s'.workers w).memory o = some (g + 1) := known_of_transit howned htransit
  have hknows : ∀ v c, Knows s v o c → Knows s' v o c := by
    rintro v c ⟨k, hk, hc⟩
    by_cases hv : v = w
    · subst hv
      rw [hwas] at hk
      cases hk
      exact ⟨g + 1, hself, hc.trans (Nat.le_succ g)⟩
    · exact (helse.knows hv).mpr ⟨k, hk, hc⟩
  have hreleased : ∀ v c, .released v o c ∈ s'.history ↔
      (v = w ∧ c = g + 1) ∨ .released v o c ∈ s.history := fun v c =>
    (hhistory _ rfl).trans
      (or_congr_left ⟨by rintro ⟨⟩; exact ⟨rfl, rfl⟩, by rintro ⟨rfl, rfl⟩; rfl⟩)
  have hbefore : ∀ v, .released v o (g + 1) ∉ s.history := fun v hv => by
    obtain ⟨k, hk, hle⟩ := h.remembered _ hv rfl
    have := (h.known_le _ k hk).2
    dsimp only [Event.generation, Title.generation] at this hle
    omega
  constructor
  case owned_iff =>
    intro v c
    refine ⟨fun hv => ?_, nofun⟩
    by_cases hvw : v = w
    · rw [hvw, howned] at hv
      cases hv
    · rw [helse.owned v hvw, hnone v hvw] at hv
      cases hv
  case transit_of_owned =>
    intro v hv
    by_cases hvw : v = w
    · exact absurd howned (hvw ▸ hv)
    · exact absurd (hnone v hvw) (helse.owned v hvw ▸ hv)
  case known_le =>
    intro v k hk
    by_cases hv : v = w
    · subst hv
      rw [hself] at hk
      cases hk
      exact ⟨Nat.le_add_left 1 g, le_rfl⟩
    · rw [known_congr (helse.owned v hv) (helse.transit v hv)] at hk
      exact ⟨(h.known_le v k hk).1, (h.known_le v k hk).2.trans (Nat.le_succ g)⟩
  case renounced =>
    intro v d' c hv
    rw [hreleased]
    by_cases hvw : v = w
    · subst hvw
      rw [htransit] at hv
      cases hv
      exact ⟨hd, .inl ⟨rfl, rfl⟩, .inr rfl⟩
    · rw [helse.transit v hvw] at hv
      obtain ⟨hne, hrel, hknows' | heq⟩ := h.renounced v d' c hv
      · exact ⟨hne, .inr hrel, .inl (hknows d' c hknows')⟩
      · cases heq
  case home =>
    intro _
    by_cases hv : layout.defaultWorker o = w
    · rw [hv, hself]
      exact nofun
    · rw [known_congr (helse.owned _ hv) (helse.transit _ hv)]
      exact h.home nofun
  case synced =>
    intro v hv
    by_cases hvw : v = w
    · subst hvw
      rw [hlookup, htransit]
      refine ⟨nofun, fun cp' hcp' => ?_⟩
      cases hcp'
      exact ⟨hcpo, hcpt⟩
    · rw [helse.transit v hvw, helse.checkpoints v hvw]
      exact h.synced v (hnone v hvw)
  case marker =>
    intro v cp' d' c hl ht
    left
    rw [hreleased]
    by_cases hvw : v = w
    · subst hvw
      rw [hlookup] at hl
      cases hl
      rw [hcpt] at ht
      cases ht
      exact .inl ⟨rfl, rfl⟩
    · rw [helse.checkpoints v hvw] at hl
      refine .inr ((h.marker v cp' d' c hl ht).resolve_right ?_)
      rintro ⟨k, heq, _⟩
      cases heq
      exact hvw rfl
  case remembered =>
    intro e he ho
    rcases (hhistory e ho).mp he with rfl | he
    · exact ⟨g + 1, hself, le_rfl⟩
    · exact hknows _ _ (h.remembered e he ho)
  case released_unique =>
    intro v v' c hv hv'
    rcases (hreleased v c).mp hv with ⟨rfl, rfl⟩ | hv
    · rcases (hreleased v' _).mp hv' with ⟨rfl, _⟩ | hv'
      · rfl
      · exact absurd hv' (hbefore v')
    · rcases (hreleased v' c).mp hv' with ⟨rfl, rfl⟩ | hv'
      · exact absurd hv (hbefore v)
      · exact h.released_unique v v' c hv hv'

/-- The holder's renunciation takes effect and reports an error: only its checkpoint changes. -/
theorem Recorded.lose (h : Recorded layout s o (.held w g)) (helse : Elsewhere s s' w o)
    (howned : (s'.workers w).memory.owned o = (s.workers w).memory.owned o)
    (htransit : (s'.workers w).memory.transit o = (s.workers w).memory.transit o) {d : Nat}
    (hcp : ∃ cp, s'.checkpoints.lookup w = some cp ∧ cp.transit o = some (d, g + 1))
    (hhistory : s'.history = s.history) : Recorded layout s' o (.held w g) := by
  obtain ⟨cp, hlookup, hcpt⟩ := hcp
  -- before the checkpoint goes out, nothing about the object has changed
  have hframe : Recorded layout { s' with checkpoints := s.checkpoints } o (.held w g) :=
    h.frame ⟨helse.owned, helse.transit, fun _ _ => rfl⟩ howned htransit (.inl rfl)
      fun e _ => by rw [hhistory]
  have hheld : (s'.workers w).memory.owned o = some g :=
    howned.trans ((h.owned_iff w g).mpr rfl)
  refine { hframe with synced := fun v hv => ?_, marker := fun v cp' d' c hl ht => ?_ }
  · have hvw : v ≠ w := by
      rintro rfl
      rw [hheld] at hv
      cases hv
    rw [helse.checkpoints v hvw]
    exact hframe.synced v hv
  · by_cases hvw : v = w
    · subst hvw
      rw [hlookup] at hl
      cases hl
      rw [hcpt] at ht
      cases ht
      exact .inr ⟨g, rfl, rfl⟩
    · exact hframe.marker v cp' d' c (helse.checkpoints v hvw ▸ hl) ht

end Title

end Fafo.Ownership
