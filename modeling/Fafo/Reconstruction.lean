import Fafo.Images
import Fafo.Library.Runs

/-! Shipped state is reconstructible exactly when no delta leaves out a page that a smaller ship cut
away. -/
namespace Fafo.Legacy

open Interleave Deltas Bytes

variable {ι τ : Type} [DecidableEq ι] [DecidableEq τ] {hash : List UInt8 → UInt64}

/-- The files of one object: pages that hash alike are alike, and u32 can number them. -/
structure Fair (hash : List UInt8 → UInt64) (files : Set File) : Prop where
  distinct : ∀ f ∈ files, ∀ g ∈ files, ∀ h ∈ files, ∀ p ∈ pages (pageSize h) f,
    ∀ q ∈ pages (pageSize h) g, hash p = hash q → p = q
  numbered : ∀ f ∈ files, ∀ h ∈ files, pageCount (pageSize h) f < 2 ^ 32

/-- The boat is shipped and promoted, and every file aboard is newer than what was last shipped. -/
structure Sails (hash : List UInt8 → UInt64) (files : ι → Set File) (d : Depot ι τ)
    (trip : Trip ι τ) : Prop where
  promotes : d.Promotes hash trip
  known : ∀ id ∈ trip.objects, trip.file id ∈ files id
  newer : ∀ id ∈ trip.objects, ∀ last, d.shipped id = some last →
    changeCounter last < changeCounter (trip.file id)

/-- Where the last ship was a small one, a delta leaves out only pages on which that one, cut or
filled up, agrees. -/
def Covered (hash : List UInt8 → UInt64) (d : Depot ι τ) (trip : Trip ι τ) : Prop :=
  ∀ id ∈ trip.objects, ∀ last m, d.shipped id = some last → d.manifests id = some m →
    last.length < deltaMinBytes → deltaMinBytes ≤ (trip.file id).length →
    RidesDelta hash m (trip.file id) → ∀ i < pageCount m.pageSize (trip.file id),
      m.has hash (trip.file id) i → page m.pageSize (resize last (trip.file id).length 0) i =
        page m.pageSize (trip.file id) i

/-- The store holds the image last shipped of every object, under a chain that is short enough. -/
def Reconstructs (d : Depot ι τ) : Prop :=
  ∀ id last, d.shipped id = some last →
    restored d.world id = some last ∧ (chain d.world id).length ≤ compactChain

/-- Hashes of the pages of a file, at the page size of a file. -/
def Describes (hash : List UInt8 → UInt64) (files : Set File) (m : Manifest) (file : File) : Prop :=
  (∃ h ∈ files, m.pageSize = pageSize h) ∧ m.hashes = (pages m.pageSize file).map hash

/-- What `shipPayload` can do. -/
theorem shipPayload_cases (hash : List UInt8 → UInt64) (manifest : Option Manifest) (bytes : File) :
    (∃ gc, shipPayload hash manifest bytes = (.snapshot bytes gc, manifest) ∧
      bytes.length < deltaMinBytes) ∨
    (shipPayload hash manifest bytes = (.snapshot bytes false, some (.of hash bytes 0)) ∧
      manifest = none ∧ deltaMinBytes ≤ bytes.length) ∨
    (∃ m, shipPayload hash manifest bytes =
        (.snapshot bytes true, some { (diff hash m bytes).2 with chainLen := 0 }) ∧
      manifest = some m ∧ deltaMinBytes ≤ bytes.length ∧ ¬ RidesDelta hash m bytes) ∨
    ∃ m, shipPayload hash manifest bytes =
        (.delta (diff hash m bytes).1.counter.toNat (encode (diff hash m bytes).1),
          some { (diff hash m bytes).2 with chainLen := m.chainLen + 1 }) ∧
      manifest = some m ∧ deltaMinBytes ≤ bytes.length ∧ RidesDelta hash m bytes := by
  by_cases hsmall : bytes.length < deltaMinBytes
  · refine .inl ⟨manifest.isSome, ?_, hsmall⟩
    rw [shipPayload.eq_def, if_pos hsmall]
  · have hlarge : deltaMinBytes ≤ bytes.length := by omega
    cases manifest with
    | none =>
      refine .inr (.inl ⟨?_, rfl, hlarge⟩)
      rw [shipPayload.eq_def, if_neg hsmall]
    | some m =>
      by_cases hrides : RidesDelta hash m bytes
      · refine .inr (.inr (.inr ⟨m, ?_, rfl, hlarge, hrides⟩))
        obtain ⟨hroom, hsize⟩ := hrides
        rw [shipPayload.eq_def, if_neg hsmall]
        dsimp only
        rw [if_neg (by omega)]
      · refine .inr (.inr (.inl ⟨m, ?_, rfl, hlarge, hrides⟩))
        rw [shipPayload.eq_def, if_neg hsmall]
        dsimp only
        rw [if_pos]
        by_contra hnot
        exact hrides ⟨by omega, by omega⟩

section Diff

variable {files : Set File} {m : Manifest} {file : File}

theorem diff_counter (hash : List UInt8 → UInt64) (m : Manifest) (file : File) :
    (diff hash m file).1.counter.toNat = changeCounter file :=
  toNat_ofNat_u32 (changeCounter_lt file)

theorem decode_diff (hash : List UInt8 → UInt64) (file : File) (hsize : m.pageSize ≤ 65536)
    (hcount : pageCount m.pageSize file < 2 ^ 32) :
    decode (encode (diff hash m file).1) = .ok (diff hash m file).1 := by
  refine decode_encode _ ?_ fun p hp => ?_
  · have hle : (changed hash m file).length ≤ pageCount m.pageSize file := by
      refine (List.length_filter_le _ _).trans ?_
      rw [List.length_range]
    simp only [diff, List.length_map]
    omega
  · obtain ⟨i, _, rfl⟩ := List.mem_map.mp hp
    have hlen := length_page m.pageSize file i
    dsimp only
    omega

/-- The delta to a known file leads there from `last` exactly when `last` agrees with it on the
pages left out. -/
theorem apply_delta_iff (hfiles : Fair hash files) (hsize : ∃ h ∈ files, m.pageSize = pageSize h)
    (hfile : file ∈ files) (last : File) :
    apply last (diff hash m file).1 = file ↔ ∀ i < pageCount m.pageSize file, m.has hash file i →
      page m.pageSize (resize last file.length 0) i = page m.pageSize file i := by
  obtain ⟨h, hh, hsize⟩ := hsize
  have hpos : 0 < m.pageSize := hsize ▸ pageSize_pos h
  have hle : m.pageSize ≤ 65536 := hsize ▸ pageSize_le h
  have hcount : pageCount m.pageSize file < 2 ^ 32 := hsize ▸ hfiles.numbered file hfile h hh
  have hlen : file.length < 2 ^ 64 := by
    calc file.length ≤ pageCount m.pageSize file * m.pageSize := length_le_pageCount hpos
      _ ≤ 2 ^ 32 * 65536 := Nat.mul_le_mul hcount.le hle
      _ < 2 ^ 64 := by decide
  exact apply_diff_eq_iff hash hpos (by omega) hlen hcount.le

/-- A manifest that describes the last file leaves out nothing that has changed. -/
theorem describes_agrees (hfiles : Fair hash files) {last : File} (hlast : last ∈ files)
    (hfile : file ∈ files) (hm : Describes hash files m last) {i : Nat}
    (hi : i < pageCount m.pageSize file) (hhas : m.has hash file i) :
    page m.pageSize (resize last file.length 0) i = page m.pageSize file i := by
  obtain ⟨⟨h, hh, hsize⟩, hhashes⟩ := hm
  refine page_resize (hsize ▸ pageSize_pos h) ?_
  rw [Manifest.has, hhashes, List.getElem?_map, getElem?_pages] at hhas
  split_ifs at hhas with hlt
  · have heq : hash (page m.pageSize last i) = hash (page m.pageSize file i) :=
      Option.some.inj hhas
    rw [hsize] at hi hlt heq ⊢
    exact hfiles.distinct last hlast file hfile h hh _ (mem_pages.mpr ⟨i, hlt, rfl⟩) _
      (mem_pages.mpr ⟨i, hi, rfl⟩) heq
  · cases hhas

end Diff

/-- What the worker and the store know of an object, of which `last` was last shipped. -/
structure Kept (hash : List UInt8 → UInt64) (files : Set File) (manifest : Option Manifest)
    (w : LegacyWorld ι τ File) (id : ι) (last : File) : Prop where
  known : last ∈ files
  restored : restored w id = some last
  base : ∃ b, baseOf w id = some b ∧ changeCounter b ≤ changeCounter last
  below : ∀ c, (w.get (.delta id c)).isSome → c ≤ changeCounter last
  small : manifest = none → chain w id = [] ∧ last.length < deltaMinBytes
  large : ∀ m, manifest = some m → (∃ h ∈ files, m.pageSize = pageSize h) ∧
    (deltaMinBytes ≤ last.length → Describes hash files m last) ∧
    (chain w id).length ≤ m.chainLen ∧ m.chainLen ≤ compactChain

/-- What they know of an object that was never shipped. -/
structure Unshipped (manifest : Option Manifest) (w : LegacyWorld ι τ File) (id : ι) : Prop where
  manifest : manifest = none
  base : w.get (.base id) = none
  delta : ∀ c, w.get (.delta id c) = none

def KeptAs (hash : List UInt8 → UInt64) (files : Set File) (manifest : Option Manifest)
    (w : LegacyWorld ι τ File) (id : ι) : Option File → Prop
  | none => Unshipped manifest w id
  | some last => Kept hash files manifest w id last

def Stocked (hash : List UInt8 → UInt64) (files : ι → Set File) (d : Depot ι τ) : Prop :=
  ∀ id, KeptAs hash (files id) (d.manifests id) d.world id (d.shipped id)

theorem Kept.chain_le {files : Set File} {manifest : Option Manifest} {w : LegacyWorld ι τ File}
    {id : ι} {last : File} (h : Kept hash files manifest w id last) :
    (chain w id).length ≤ compactChain := by
  cases manifest with
  | none =>
    rw [(h.small rfl).1]
    exact Nat.zero_le _
  | some m =>
    obtain ⟨_, _, hchain, hroom⟩ := h.large m rfl
    omega

theorem Stocked.kept {files : ι → Set File} {d : Depot ι τ} (h : Stocked hash files d) {id : ι}
    {last : File} (hlast : d.shipped id = some last) :
    Kept hash (files id) (d.manifests id) d.world id last := by
  have hid := h id
  rwa [hlast] at hid

theorem Stocked.reconstructs {files : ι → Set File} {d : Depot ι τ} (h : Stocked hash files d) :
    Reconstructs d :=
  fun _ _ hlast => ⟨(h.kept hlast).restored, (h.kept hlast).chain_le⟩

theorem KeptAs.same {files : Set File} {manifest : Option Manifest} {w w' : LegacyWorld ι τ File}
    {id : ι} {last : Option File} (h : SameObject id w w')
    (hk : KeptAs hash files manifest w id last) : KeptAs hash files manifest w' id last := by
  cases last with
  | none => exact ⟨hk.manifest, by rw [h.base, hk.base], fun c => by rw [h.delta, hk.delta]⟩
  | some last =>
    refine ⟨hk.known, by rw [h.restored, hk.restored], ?_, ?_, ?_, ?_⟩
    · obtain ⟨b, hb, hle⟩ := hk.base
      exact ⟨b, by rwa [baseOf, h.base], hle⟩
    · intro c hc
      rw [h.delta] at hc
      exact hk.below c hc
    · rw [h.chain]
      exact hk.small
    · rw [h.chain]
      exact hk.large

section Aboard

variable {files : Set File} {manifest manifest' : Option Manifest} {w w' : LegacyWorld ι τ File}
  {id : ι} {last : Option File} {file : File}

/-- Every delta in the store is older than what is shipped next. -/
theorem KeptAs.older (hk : KeptAs hash files manifest w id last)
    (hnewer : ∀ l, last = some l → changeCounter l < changeCounter file) (c : Nat)
    (hc : (w.get (.delta id c)).isSome) : c < changeCounter file := by
  cases last with
  | none =>
    rw [hk.delta] at hc
    cases hc
  | some l => exact (hk.below c hc).trans_lt (hnewer l rfl)

/-- After a snapshot the object is kept, if its manifest is in order. -/
theorem kept_snapshot (hk : KeptAs hash files manifest w id last) (hfile : file ∈ files)
    (hnewer : ∀ l, last = some l → changeCounter l < changeCounter file)
    (hbase : w'.get (.base id) = some (.bytes file))
    (hdelta : ∀ c, (w'.get (.delta id c)).isSome → (w.get (.delta id c)).isSome)
    (hsmall : manifest' = none → file.length < deltaMinBytes)
    (hlarge : ∀ m, manifest' = some m → (∃ h ∈ files, m.pageSize = pageSize h) ∧
      (deltaMinBytes ≤ file.length → Describes hash files m file) ∧ m.chainLen ≤ compactChain) :
    Kept hash files manifest' w' id file := by
  have hbelow : ∀ c, (w'.get (.delta id c)).isSome → c ≤ changeCounter file :=
    fun c hc => (hk.older hnewer c (hdelta c hc)).le
  have hchain : chain w' id = [] := chain_of_snapshot hbase hbelow
  refine ⟨hfile, restored_of_snapshot hbase hbelow, ⟨file, by rw [baseOf, hbase]; rfl, le_rfl⟩,
    hbelow, fun hnone => ⟨hchain, hsmall hnone⟩, fun m hm => ?_⟩
  obtain ⟨hsize, hdescribes, hroom⟩ := hlarge m hm
  rw [hchain]
  exact ⟨hsize, hdescribes, Nat.zero_le _, hroom⟩

/-- The manifest that a diff leaves describes the file. -/
theorem describes_diff (hash : List UInt8 → UInt64) {m : Manifest} (file : File) (n : Nat)
    (hsize : ∃ h ∈ files, m.pageSize = pageSize h) :
    Describes hash files { (diff hash m file).2 with chainLen := n } file := ⟨hsize, rfl⟩

variable {m : Manifest} {l : File}

/-- What the store holds once the delta to a file has landed. -/
theorem restored_delta (hfiles : Fair hash files) (hk : Kept hash files (some m) w id l)
    (hfile : file ∈ files) (hnewer : changeCounter l < changeCounter file)
    (hbase : w'.get (.base id) = w.get (.base id))
    (hdelta : w'.get (.delta id (changeCounter file)) =
      some (.bytes (encode (diff hash m file).1)))
    (hothers : ∀ c, c ≠ changeCounter file → w'.get (.delta id c) = w.get (.delta id c)) :
    restored w' id = some (apply l (diff hash m file).1) ∧
      chain w' id = chain w id ++ [changeCounter file] := by
  obtain ⟨⟨h, hh, hsize⟩, _⟩ := hk.large m rfl
  obtain ⟨b, hb, hle⟩ := hk.base
  have habove : ∀ c, (w.get (.delta id c)).isSome → c < changeCounter file :=
    fun c hc => (hk.below c hc).trans_lt hnewer
  have hdecode := decode_diff hash file (hsize ▸ pageSize_le h)
    (hsize ▸ hfiles.numbered file hfile h hh)
  refine ⟨?_, chain_of_delta hb (hle.trans_lt hnewer) habove hbase hdelta hothers⟩
  rw [restored_of_delta hb (hle.trans_lt hnewer) habove hbase hdelta hothers hdecode, hk.restored]
  rfl

/-- After a delta that leads to the file the object is kept. -/
theorem kept_delta (hfiles : Fair hash files) (hk : Kept hash files (some m) w id l)
    (hfile : file ∈ files) (hnewer : changeCounter l < changeCounter file)
    (hbase : w'.get (.base id) = w.get (.base id))
    (hdelta : w'.get (.delta id (changeCounter file)) =
      some (.bytes (encode (diff hash m file).1)))
    (hothers : ∀ c, c ≠ changeCounter file → w'.get (.delta id c) = w.get (.delta id c))
    (hrides : RidesDelta hash m file) (happly : apply l (diff hash m file).1 = file) :
    Kept hash files (some { (diff hash m file).2 with chainLen := m.chainLen + 1 }) w' id file := by
  obtain ⟨hrestored, hchain⟩ := restored_delta hfiles hk hfile hnewer hbase hdelta hothers
  obtain ⟨hsize, _, hlen, _⟩ := hk.large m rfl
  refine ⟨hfile, by rw [hrestored, happly], ?_, fun c hc => ?_, nofun, fun m' hm' => ?_⟩
  · obtain ⟨b, hb, hle⟩ := hk.base
    exact ⟨b, by rwa [baseOf, hbase], hle.trans hnewer.le⟩
  · by_cases heq : c = changeCounter file
    · exact heq.le
    · rw [hothers c heq] at hc
      exact (hk.below c hc).trans hnewer.le
  · obtain rfl := Option.some.inj hm'
    refine ⟨hsize, fun _ => describes_diff hash file _ hsize, ?_, hrides.1⟩
    rw [hchain, List.length_append, List.length_singleton]
    exact Nat.add_le_add_right hlen 1

end Aboard

section Ship

variable {files : ι → Set File} {d : Depot ι τ} {trip : Trip ι τ} {id : ι}

theorem Sails.lands (hsails : Sails hash files d trip) :
    Lands fileFormat (d.boat hash trip) d.world (d.ship hash trip).world :=
  shipTask_solo fileFormat trip.env trip.txn _ 0 d.world hsails.promotes.1 hsails.promotes.2

omit [DecidableEq ι] [DecidableEq τ] in
theorem mem_boat (hash : List UInt8 → UInt64) (d : Depot ι τ) (hid : id ∈ trip.objects) :
    ⟨id, (shipPayload hash (d.manifests id) (trip.file id)).1⟩ ∈ (d.boat hash trip).items :=
  List.mem_map.mpr ⟨id, hid, rfl⟩

omit [DecidableEq ι] [DecidableEq τ] in
theorem boat_objects : (d.boat hash trip).objects = trip.objects := by
  simp [Boat.objects, Depot.boat, Depot.items, Function.comp_def]

/-- An object that rode the boat and whose delta, if it shipped one, led to its file. -/
theorem kept_ship (hfiles : Fair hash (files id)) (hd : Stocked hash files d)
    (hsails : Sails hash files d trip) (hid : id ∈ trip.objects)
    (happly : ∀ l m, d.shipped id = some l → d.manifests id = some m →
      deltaMinBytes ≤ (trip.file id).length → RidesDelta hash m (trip.file id) →
      apply l (diff hash m (trip.file id)).1 = trip.file id) :
    Kept hash (files id) (shipPayload hash (d.manifests id) (trip.file id)).2
      (d.ship hash trip).world id (trip.file id) := by
  have hk := hd id
  have hfile := hsails.known id hid
  have hnewer := hsails.newer id hid
  have hmem := mem_boat hash d hid
  rcases shipPayload_cases hash (d.manifests id) (trip.file id) with ⟨gc, heq, hsmall⟩ |
    ⟨heq, _, _⟩ | ⟨m, heq, hm, _, _⟩ | ⟨m, heq, hm, hlarge, hrides⟩
  · rw [heq] at hmem ⊢
    obtain ⟨hbase, hdelta⟩ := hsails.lands.snapshot hmem
    refine kept_snapshot hk hfile hnewer hbase hdelta (fun _ => hsmall) fun m hm => ?_
    cases hlast : d.shipped id with
    | none =>
      rw [hlast] at hk
      rw [hk.manifest] at hm
      cases hm
    | some l =>
      rw [hlast] at hk
      obtain ⟨hsize, _, _, hroom⟩ := hk.large m hm
      exact ⟨hsize, fun hlarge => absurd hsmall (by omega), hroom⟩
  · rw [heq] at hmem ⊢
    obtain ⟨hbase, hdelta⟩ := hsails.lands.snapshot hmem
    refine kept_snapshot hk hfile hnewer hbase hdelta nofun fun m hm => ?_
    obtain rfl := Option.some.inj hm
    exact ⟨⟨_, hfile, rfl⟩, fun _ => ⟨⟨_, hfile, rfl⟩, rfl⟩, Nat.zero_le _⟩
  all_goals
    cases hlast : d.shipped id with
    | none =>
      rw [hlast] at hk
      rw [hk.manifest] at hm
      cases hm
    | some l => ?_
  · rw [heq] at hmem ⊢
    obtain ⟨hbase, hdelta⟩ := hsails.lands.snapshot hmem
    refine kept_snapshot hk hfile hnewer hbase hdelta nofun fun m' hm' => ?_
    rw [hlast] at hk
    obtain ⟨hsize, _⟩ := hk.large m hm
    obtain rfl := Option.some.inj hm'
    exact ⟨hsize, fun _ => describes_diff hash _ 0 hsize, Nat.zero_le _⟩
  · rw [heq, diff_counter] at hmem
    rw [heq]
    rw [hlast] at hk
    have hk' : Kept hash (files id) (some m) d.world id l := hm ▸ hk
    obtain ⟨hbase, hdelta, hothers⟩ := hsails.lands.delta hmem
    exact kept_delta hfiles hk' hfile (hnewer l hlast) hbase hdelta hothers hrides
      (happly l m hlast hm hlarge hrides)

/-- A covered ship keeps every object. -/
theorem stocked_ship (hfiles : ∀ id, Fair hash (files id)) (hd : Stocked hash files d)
    (hsails : Sails hash files d trip) (hcovered : Covered hash d trip) :
    Stocked hash files (d.ship hash trip) := by
  intro id
  by_cases hid : id ∈ trip.objects
  · rw [Depot.ship]
    simp only [hid, if_true]
    refine kept_ship (hfiles id) hd hsails hid fun l m hl hm hlarge hrides => ?_
    have hk : Kept hash (files id) (some m) d.world id l := hm ▸ hd.kept hl
    obtain ⟨hsize, hdescribes, _⟩ := hk.large m rfl
    refine (apply_delta_iff (hfiles id) hsize (hsails.known id hid) l).mpr fun i hi hhas => ?_
    by_cases hsmall : l.length < deltaMinBytes
    · exact hcovered id hid l m hl hm hsmall hlarge hrides i hi hhas
    · exact describes_agrees (hfiles id) hk.known (hsails.known id hid)
        (hdescribes (by omega)) hi hhas
  · have hsame : SameObject id d.world (d.ship hash trip).world :=
      hsails.lands.absent (by rwa [boat_objects])
    have hkept := (hd id).same hsame
    rw [Depot.ship] at hkept ⊢
    simpa only [hid, if_false] using hkept

/-- A ship that is not covered loses an object at once. -/
theorem not_reconstructs_ship (hfiles : ∀ id, Fair hash (files id)) (hd : Stocked hash files d)
    (hsails : Sails hash files d trip) (hlost : ¬ Covered hash d trip) :
    ¬ Reconstructs (d.ship hash trip) := by
  intro h
  refine hlost fun id hid l m hl hm _ hlarge hrides => ?_
  have hk : Kept hash (files id) (some m) d.world id l := hm ▸ hd.kept hl
  have hmem := mem_boat hash d hid
  rcases shipPayload_cases hash (d.manifests id) (trip.file id) with ⟨_, _, hsmall⟩ |
    ⟨_, hnone, _⟩ | ⟨m', _, hm', _, hnot⟩ | ⟨m', heq, hm', _, _⟩
  · omega
  · rw [hm] at hnone
    cases hnone
  · obtain rfl : m = m' := Option.some.inj (hm.symm.trans hm')
    exact absurd hrides hnot
  · obtain rfl : m = m' := Option.some.inj (hm.symm.trans hm')
    rw [heq, diff_counter] at hmem
    obtain ⟨hbase, hdelta, hothers⟩ := hsails.lands.delta hmem
    obtain ⟨hrestored, _⟩ := restored_delta (hfiles id) hk (hsails.known id hid)
      (hsails.newer id hid l hl) hbase hdelta hothers
    have hshipped : (d.ship hash trip).shipped id = some (trip.file id) := by
      rw [Depot.ship]
      simp only [hid, if_true]
    have happly : apply l (diff hash m (trip.file id)).1 = trip.file id :=
      Option.some.inj (hrestored.symm.trans (h id _ hshipped).1)
    obtain ⟨hsize, _⟩ := hk.large m rfl
    exact (apply_delta_iff (hfiles id) hsize (hsails.known id hid) l).mp happly

end Ship

/-- A worker and a store that have yet to see an object. -/
def Depot.start (blobs : Blobs (Key ι τ) (Blob ι τ File)) : Depot ι τ where
  manifests _ := none
  world := { blobs := blobs }
  shipped _ := none

theorem stocked_start (hash : List UInt8 → UInt64) (files : ι → Set File)
    {blobs : Blobs (Key ι τ) (Blob ι τ File)}
    (hempty : ∀ key, objectsPrefix key = true → blobs.lookup key = none) :
    Stocked hash files (Depot.start blobs) :=
  fun id => ⟨rfl, hempty (.base id) rfl, fun c => hempty (.delta id c) rfl⟩

/-- However its files grow and shrink, an object is reconstructible after every ship exactly when
every ship is covered. -/
theorem reconstructible_iff {files : ι → Set File} (hfiles : ∀ id, Fair hash (files id))
    {blobs : Blobs (Key ι τ) (Blob ι τ File)}
    (hempty : ∀ key, objectsPrefix key = true → blobs.lookup key = none) {trips : List (Trip ι τ)}
    (hsails : Runs.Guarded (Depot.ship hash) (Sails hash files) (.start blobs) trips) :
    Runs.Throughout (Depot.ship hash) Reconstructs (.start blobs) trips ↔
      Runs.Guarded (Depot.ship hash) (Covered hash) (.start blobs) trips :=
  hsails.throughout_iff (I := Stocked hash files)
    (fun _ _ hd hs hc => stocked_ship hfiles hd hs hc) (fun _ hd => hd.reconstructs)
    (fun _ _ hd hs hc => not_reconstructs_ship hfiles hd hs hc) (stocked_start hash files hempty)

section Drafts

variable {c : UInt8} {i j : Nat}

/-- SQLite's magic string, pages of 32 KiB, and the change counter. -/
def draftHeader (c : UInt8) : File :=
  [83, 81, 76, 105, 116, 101, 32, 102, 111, 114, 109, 97, 116, 32, 51, 0] ++ [128, 0] ++
    [1, 1, 0, 64, 32, 32] ++ [0, 0, 0, c] ++ List.replicate 72 0

/-- Draft 3 fills one page, the others three. -/
def draft (c : UInt8) : File :=
  draftHeader c ++ List.replicate (if c = 3 then 32668 else 98204) 1

def fullPage : List UInt8 := List.replicate 32768 1

def drafts : Unit → Set File := fun _ => {f | ∃ c, 1 < c ∧ f = draft c}

/-- The last byte of the change counter, where the page has one. -/
def pageTag (p : List UInt8) : UInt64 := (p.getD 27 0).toUInt64

/-- The one object, shipped alone on a store that does not fail. -/
def draftTrip (c : UInt8) : Trip Unit Nat where
  txn := c.toNat
  objects := [()]
  objects_nodup := List.nodup_singleton _
  file _ := draft c
  landing := id
  landing_perm items := .refl items
  env k := { verdict := k ≠ 1 }

theorem length_draft (c : UInt8) : (draft c).length = if c = 3 then 32768 else 98304 := by
  have hheader : (draftHeader c).length = 100 := rfl
  rw [draft, List.length_append, List.length_replicate, hheader]
  split_ifs <;> omega

theorem draft_long (c : UInt8) : ¬ (draft c).length < 100 := by
  rw [length_draft]
  split_ifs <;> omega

theorem pageSize_draft (c : UInt8) : pageSize (draft c) = 32768 := by
  rw [pageSize, if_neg (draft_long c)]
  rfl

theorem changeCounter_draft (c : UInt8) : changeCounter (draft c) = c.toNat := by
  have hfield : ((draft c).drop 24).take 4 = [0, 0, 0, c] := rfl
  rw [changeCounter, if_neg (draft_long c), hfield]
  simp [fromBE, fromLE]

theorem getElem?_draft (hc : c ≠ 3) (hlow : 100 ≤ j) (hhigh : j < 98304) :
    (draft c)[j]? = some 1 := by
  have hlen : (draftHeader c).length = 100 := rfl
  rw [draft, List.getElem?_append_right (by omega), hlen, List.getElem?_replicate, if_neg hc,
    if_pos (by omega)]

theorem pageCount_draft (hc : c ≠ 3) : pageCount 32768 (draft c) = 3 := by
  rw [pageCount, length_draft, if_neg hc]

theorem pageTag_first (c : UInt8) : pageTag (page 32768 (draft c) 0) = c.toUInt64 := by
  rw [pageTag, List.getD_eq_getElem?_getD, getElem?_page, if_pos (by decide)]
  rfl

/-- The other pages of a draft are alike. -/
theorem page_draft (hi : 0 < i) (hcount : i < pageCount 32768 (draft c)) :
    page 32768 (draft c) i = fullPage := by
  rw [lt_pageCount_iff (by decide), length_draft] at hcount
  split_ifs at hcount with hc
  · omega
  · refine List.ext_getElem? fun k => ?_
    rw [getElem?_page, fullPage, List.getElem?_replicate]
    split_ifs with hk
    · have hlow : 100 ≤ i * 32768 + k := by omega
      have hpage : i ≤ 2 := by omega
      have hhigh : i * 32768 + k < 98304 := by
        clear hcount
        omega
      exact getElem?_draft hc hlow hhigh
    · rfl

theorem pageTag_fullPage : pageTag fullPage = 1 := by
  have hget : fullPage[27]? = some 1 := by
    rw [fullPage, List.getElem?_replicate, if_pos (by omega)]
  rw [pageTag, List.getD_eq_getElem?_getD, hget]
  rfl

/-- A page of a draft tells by its tag which page it is. -/
theorem pages_draft {p : List UInt8} (hp : p ∈ pages 32768 (draft c)) :
    p = page 32768 (draft c) 0 ∧ pageTag p = c.toUInt64 ∨
      p = fullPage ∧ pageTag p = 1 := by
  obtain ⟨i, hi, rfl⟩ := mem_pages.mp hp
  by_cases hzero : i = 0
  · subst hzero
    exact .inl ⟨rfl, pageTag_first c⟩
  · rw [page_draft (Nat.pos_of_ne_zero hzero) hi]
    exact .inr ⟨rfl, pageTag_fullPage⟩

theorem toUInt64_ne_one (hc : 1 < c) : c.toUInt64 ≠ 1 := by
  intro h
  have hone : c = 1 := UInt8.toUInt64_inj.mp h
  subst hone
  exact absurd hc (by decide)

theorem fair_drafts (id : Unit) : Fair pageTag (drafts id) := by
  constructor
  · rintro _ ⟨c, hc, rfl⟩ _ ⟨c', hc', rfl⟩ _ ⟨c'', _, rfl⟩ p hp q hq h
    rw [pageSize_draft] at hp hq
    rcases pages_draft hp with ⟨rfl, hp⟩ | ⟨rfl, hp⟩ <;>
      rcases pages_draft hq with ⟨rfl, hq⟩ | ⟨rfl, hq⟩
    · rw [hp, hq] at h
      rw [UInt8.toUInt64_inj.mp h]
    · rw [hp, hq] at h
      exact absurd h (toUInt64_ne_one hc)
    · rw [hp, hq] at h
      exact absurd h.symm (toUInt64_ne_one hc')
    · rfl
  · rintro _ ⟨c, _, rfl⟩ _ ⟨c', _, rfl⟩
    rw [pageSize_draft, pageCount, length_draft]
    split_ifs <;> decide

/-- Drafts 2 and 4 differ on their first page only. -/
theorem has_draft {m : Manifest} (hm : m = .of pageTag (draft 2) 0) (hi : i < 3) :
    m.has pageTag (draft 4) i ↔ 0 < i := by
  have hcount : pageCount 32768 (draft 2) = 3 := pageCount_draft (by decide)
  have hcount' : pageCount 32768 (draft 4) = 3 := pageCount_draft (by decide)
  have hsize : m.pageSize = 32768 := by rw [hm, Manifest.of, pageSize_draft]
  have hhashes : m.hashes = (pages 32768 (draft 2)).map pageTag := by
    rw [hm, Manifest.of, pageSize_draft]
  rw [Manifest.has, hsize, hhashes, List.getElem?_map, getElem?_pages, if_pos (by omega)]
  by_cases hzero : i = 0
  · subst hzero
    rw [Option.map_some, pageTag_first, pageTag_first]
    decide
  · have hpos : 0 < i := Nat.pos_of_ne_zero hzero
    rw [page_draft hpos (by omega), page_draft hpos (by omega)]
    simp [hpos]

/-- What the worker keeps of draft 2. -/
def draftManifest : Manifest := .of pageTag (draft 2) 0

theorem changed_draft : changed pageTag draftManifest (draft 4) = [0] := by
  have hcount : pageCount draftManifest.pageSize (draft 4) = 3 := by
    rw [draftManifest, Manifest.of, pageSize_draft, pageCount_draft (by decide)]
  have hrange : List.range 3 = [0, 1, 2] := rfl
  rw [changed, hcount, hrange]
  have h0 : ¬ draftManifest.has pageTag (draft 4) 0 :=
    fun h => absurd ((has_draft rfl (by decide)).mp h) (by decide)
  have h1 : draftManifest.has pageTag (draft 4) 1 := (has_draft rfl (by decide)).mpr (by decide)
  have h2 : draftManifest.has pageTag (draft 4) 2 := (has_draft rfl (by decide)).mpr (by decide)
  simp [h0, h1, h2]

theorem pages_diff_draft : (diff pageTag draftManifest (draft 4)).1.pages =
    [(0, page 32768 (draft 4) 0)] := by
  have hsize : draftManifest.pageSize = 32768 := pageSize_draft 2
  simp only [diff, changed_draft, hsize, List.map_cons, List.map_nil]
  rfl

theorem length_first : (page 32768 (draft 4) 0).length = 32768 := by
  rw [length_page, length_draft, if_neg (by decide)]
  omega

theorem ridesDelta_draft : RidesDelta pageTag draftManifest (draft 4) := by
  refine ⟨by decide, ?_⟩
  rw [deltaSize, pages_diff_draft, length_draft, if_neg (by decide)]
  simp only [List.map_cons, List.map_nil, List.sum_singleton, length_first]
  decide

variable {d : Depot Unit Nat}

theorem manifests_draft (d : Depot Unit Nat) (c : UInt8) :
    (d.ship pageTag (draftTrip c)).manifests () =
      (shipPayload pageTag (d.manifests ()) (draft c)).2 := rfl

/-- A draft sails if it rides inline and is newer. -/
theorem sails_draft {c : UInt8} (hc : 1 < c)
    (hinline : (⟨(), (shipPayload pageTag (d.manifests ()) (draft c)).1⟩ :
      ShipItem Unit File).bytes.length ≤ inlineMaxBytes)
    (hnewer : ∀ last, d.shipped () = some last → ∃ c' < c, last = draft c') :
    Sails pageTag drafts d (draftTrip c) := by
  have hboat : (d.boat pageTag (draftTrip c)).inline fileFormat = true := by
    refine decide_eq_true ?_
    simpa [Depot.boat, Depot.items, draftTrip, fileFormat] using hinline
  have hworks : ∀ k, ((draftTrip c).env k).fault = .none := fun _ => rfl
  have hheld : ((draftTrip c).env 0).verdict = true := rfl
  have hdone := shipTask_works fileFormat hworks hheld rfl (draftTrip c).txn hboat d.world
  refine ⟨⟨?_, ?_⟩, fun id _ => ⟨c, hc, rfl⟩, fun id _ last hlast => ?_⟩
  · rw [Depot.voyage, hdone]
  · rw [Depot.voyage, hdone]
  · obtain ⟨c', hlt, rfl⟩ := hnewer last hlast
    change changeCounter (draft c') < changeCounter (draft c)
    rw [changeCounter_draft, changeCounter_draft]
    exact hlt

def depot₀ : Depot Unit Nat := .start ∅
def depot₁ : Depot Unit Nat := depot₀.ship pageTag (draftTrip 2)
def depot₂ : Depot Unit Nat := depot₁.ship pageTag (draftTrip 3)

theorem payload₀ : shipPayload pageTag (depot₀.manifests ()) (draft 2) =
    (.snapshot (draft 2) false, some draftManifest) := by
  have hlarge : ¬ (draft 2).length < deltaMinBytes := by
    rw [length_draft]
    decide
  rw [shipPayload.eq_def, if_neg hlarge]
  rfl

theorem manifests₁ : depot₁.manifests () = some draftManifest := by
  rw [depot₁, manifests_draft, payload₀]

theorem payload₁ : shipPayload pageTag (depot₁.manifests ()) (draft 3) =
    (.snapshot (draft 3) true, some draftManifest) := by
  have hsmall : (draft 3).length < deltaMinBytes := by
    rw [length_draft]
    decide
  rw [shipPayload.eq_def, if_pos hsmall, manifests₁]
  rfl

theorem manifests₂ : depot₂.manifests () = some draftManifest := by
  rw [depot₂, manifests_draft, payload₁]

theorem payload₂ : shipPayload pageTag (depot₂.manifests ()) (draft 4) =
    (.delta (diff pageTag draftManifest (draft 4)).1.counter.toNat
        (encode (diff pageTag draftManifest (draft 4)).1),
      some { (diff pageTag draftManifest (draft 4)).2 with chainLen := 1 }) := by
  rcases shipPayload_cases pageTag (depot₂.manifests ()) (draft 4) with ⟨_, _, hsmall⟩ |
    ⟨_, hnone, _⟩ | ⟨m, _, hm, _, hnot⟩ | ⟨m, heq, hm, _, _⟩
  · rw [length_draft] at hsmall
    exact absurd hsmall (by decide)
  · rw [manifests₂] at hnone
    cases hnone
  · obtain rfl : draftManifest = m := Option.some.inj (manifests₂.symm.trans hm)
    exact absurd ridesDelta_draft hnot
  · obtain rfl : draftManifest = m := Option.some.inj (manifests₂.symm.trans hm)
    exact heq

/-- The page stays a variable here, so that no check unfolds it. -/
theorem length_encode_page {delta : Delta} {n : UInt32} {p : List UInt8} {size : Nat}
    (hpages : delta.pages = [(n, p)]) (hp : p.length = size) :
    (encode delta).length = 28 + size := by
  rw [length_encode, hpages, List.flatMap_singleton, length_encodePage, hp]
  omega

theorem sails₀ : Sails pageTag drafts depot₀ (draftTrip 2) := by
  refine sails_draft (by decide) ?_ nofun
  rw [payload₀]
  change (draft 2).length ≤ _
  rw [length_draft]
  decide

theorem sails₁ : Sails pageTag drafts depot₁ (draftTrip 3) := by
  refine sails_draft (by decide) ?_ fun last hlast => ⟨2, by decide, (Option.some.inj hlast).symm⟩
  rw [payload₁]
  change (draft 3).length ≤ _
  rw [length_draft]
  decide

theorem sails₂ : Sails pageTag drafts depot₂ (draftTrip 4) := by
  refine sails_draft (by decide) ?_ fun last hlast => ⟨3, by decide, (Option.some.inj hlast).symm⟩
  rw [payload₂]
  change (encode (diff pageTag draftManifest (draft 4)).1).length ≤ _
  rw [length_encode_page pages_diff_draft length_first]
  decide

theorem covered₀ : Covered pageTag depot₀ (draftTrip 2) := by
  intro id _ last m hlast
  cases hlast

theorem covered₁ : Covered pageTag depot₁ (draftTrip 3) := by
  intro id _ last m hlast _ hsmall
  obtain rfl : draft 2 = last := Option.some.inj hlast
  rw [length_draft] at hsmall
  exact absurd hsmall (by decide)

/-- The second page is zeros in the small draft, once filled up. -/
theorem not_covered₂ : ¬ Covered pageTag depot₂ (draftTrip 4) := by
  intro h
  have hsize : draftManifest.pageSize = 32768 := pageSize_draft 2
  have hsmall : (draft 3).length < deltaMinBytes := by
    rw [length_draft]
    decide
  have hlarge : deltaMinBytes ≤ (draft 4).length := by
    rw [length_draft]
    decide
  have hcount : 1 < pageCount 32768 (draft 4) := by
    rw [pageCount_draft (by decide)]
    decide
  have hpage := h () (List.mem_singleton.mpr rfl) (draft 3) draftManifest rfl manifests₂ hsmall
    hlarge ridesDelta_draft 1 (by rwa [hsize]) ((has_draft rfl (by decide)).mpr (by decide))
  rw [hsize] at hpage
  have hbyte := (page_eq_iff (by decide)).mp hpage 32768 (by decide)
  have hold : (draft 3)[32768]? = none := by
    rw [List.getElem?_eq_none]
    rw [length_draft, if_pos rfl]
  have hnew : (draft 4)[32768]? = some 1 := getElem?_draft (by decide) (by decide) (by decide)
  change (resize (draft 3) (draft 4).length 0)[32768]? = (draft 4)[32768]? at hbyte
  rw [getElem?_resize, hold, hnew, length_draft, if_pos (by decide)] at hbyte
  cases hbyte

theorem empty_start (key : Key Unit Nat) (_ : objectsPrefix key = true) :
    (∅ : Blobs (Key Unit Nat) (Blob Unit Nat File)).lookup key = none := rfl

/-- The image that follows a small one loses the pages that the older manifest already had. -/
theorem page_lost_after_shrink : (∀ id, Fair pageTag (drafts id)) ∧
    Runs.Guarded (Depot.ship pageTag) (Sails pageTag drafts) (.start ∅)
      [draftTrip 2, draftTrip 3, draftTrip 4] ∧
    ¬ Runs.Throughout (Depot.ship pageTag) Reconstructs (.start ∅)
      [draftTrip 2, draftTrip 3, draftTrip 4] := by
  refine ⟨fair_drafts, ⟨sails₀, sails₁, sails₂, trivial⟩, ?_⟩
  rintro ⟨_, _, _, hlast⟩
  have h₀ : Stocked pageTag drafts depot₀ := stocked_start pageTag drafts empty_start
  have h₁ : Stocked pageTag drafts depot₁ := stocked_ship fair_drafts h₀ sails₀ covered₀
  have h₂ : Stocked pageTag drafts depot₂ := stocked_ship fair_drafts h₁ sails₁ covered₁
  exact not_reconstructs_ship fair_drafts h₂ sails₂ not_covered₂ hlast

/-- Up to there every image is reconstructible. -/
theorem reconstructible_until_shrink : Runs.Throughout (Depot.ship pageTag) Reconstructs (.start ∅)
    [draftTrip 2, draftTrip 3] := by
  have hsails : Runs.Guarded (Depot.ship pageTag) (Sails pageTag drafts) (.start ∅)
      [draftTrip 2, draftTrip 3] := ⟨sails₀, sails₁, trivial⟩
  exact (reconstructible_iff fair_drafts empty_start hsails).mpr ⟨covered₀, covered₁, trivial⟩

end Drafts

end Fafo.Legacy
