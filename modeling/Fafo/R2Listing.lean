import Fafo.KeyTexts
import Fafo.Library.Watching
import Fafo.R2Creates

/-! Listings at R2: what is read of a page, and what the pages are together. -/
namespace Fafo.R2

open Interleave
open FsStore (Bytes sortKeys)
open Listing (Name)

/-- A tag or a text between tags. -/
def Plain (text : Name) : Prop := '<' ∉ text ∧ '>' ∉ text

instance (text : Name) : Decidable (Plain text) := inferInstanceAs (Decidable (_ ∧ _))

def element (tag text : Name) : Name := mark tag ++ text ++ mark ('/' :: tag)

/-- What a page is made of: texts, single marks, and elements that hold text. -/
inductive Node where
  | chars (content : Name)
  | single (tag : Name)
  | leaf (tag text : Name)

namespace Node

def xml : Node → Name
  | chars content => content
  | single tag => mark tag
  | leaf tag text => element tag text

/-- The text, if the element has the tag. -/
def textOf (tag : Name) : Node → Option Name
  | chars _ | single _ => none
  | leaf tag' text => if tag' = tag then some text else none

/-- Nothing in the node can be taken for another tag, and a single mark is not one of those that are
looked for. -/
def Clear (tag : Name) : Node → Prop
  | chars content => '<' ∉ content
  | single tag' => Plain tag' ∧ tag' ≠ tag
  | leaf tag' text => Plain tag' ∧ '<' ∉ text ∧ '/' :: tag' ≠ tag

end Node

def document (nodes : List Node) : Name := nodes.flatMap Node.xml

section Find

variable {pat text tag tag' rest : Name}

theorem find_of_prefix (hne : pat ≠ []) : find pat (pat ++ rest) = some ([], rest) := by
  cases pat with
  | nil => exact absurd rfl hne
  | cons c pat =>
    have hpre : (c :: pat).isPrefixOf? (c :: (pat ++ rest)) = some rest :=
      List.isPrefixOf?_eq_some_iff_append_eq.mpr rfl
    rw [List.cons_append, find, hpre]

/-- What comes before a mark can begin is passed over. -/
theorem find_skip (h : '<' ∉ text) :
    find (mark tag) (text ++ rest) =
      (find (mark tag) rest).map fun found => (text ++ found.1, found.2) := by
  induction text with
  | nil => simp
  | cons c text ih =>
    rw [List.mem_cons, not_or] at h
    obtain ⟨hc, htext⟩ := h
    have hnone : (mark tag).isPrefixOf? (c :: (text ++ rest)) = none := by
      rw [Option.eq_none_iff_forall_ne_some]
      intro after hafter
      rw [List.isPrefixOf?_eq_some_iff_append_eq] at hafter
      exact hc (List.cons.inj hafter).1
    rw [List.cons_append, find, hnone, ih htext, Option.map_map]
    rfl

theorem mark_append (tag rest : Name) : mark tag ++ rest = '<' :: (tag ++ '>' :: rest) := by
  simp [mark]

/-- Another mark is passed over. -/
theorem find_mark_ne (htag : Plain tag) (htag' : Plain tag') (h : tag' ≠ tag) :
    find (mark tag) (mark tag' ++ rest) =
      (find (mark tag) rest).map fun found => (mark tag' ++ found.1, found.2) := by
  have hnone : (mark tag).isPrefixOf? ('<' :: (tag' ++ '>' :: rest)) = none := by
    rw [Option.eq_none_iff_forall_ne_some]
    intro after hafter
    rw [List.isPrefixOf?_eq_some_iff_append_eq, mark_append] at hafter
    exact h (KeyTexts.append_sep_inj htag.2 htag'.2 (List.cons.inj hafter).2).1.symm
  have hafter : '<' ∉ tag' ++ ['>'] := by simpa using htag'.1
  have hsplit : tag' ++ '>' :: rest = (tag' ++ ['>']) ++ rest := by simp
  rw [mark_append, find, hnone, hsplit, find_skip hafter, Option.map_map]
  refine Option.map_congr fun found _ => ?_
  simp [mark]

end Find

section Extract

variable {tag tag' text rest : Name}

theorem extractFrom_skip (h : '<' ∉ text) (left : Nat) :
    extractFrom tag left (text ++ rest) = extractFrom tag left rest := by
  cases left with
  | zero => rfl
  | succ left =>
    rw [extractFrom, extractFrom, find_skip h]
    cases find (mark tag) rest <;> rfl

theorem extractFrom_mark_ne (htag : Plain tag) (htag' : Plain tag') (h : tag' ≠ tag)
    (left : Nat) : extractFrom tag left (mark tag' ++ rest) = extractFrom tag left rest := by
  cases left with
  | zero => rfl
  | succ left =>
    rw [extractFrom, extractFrom, find_mark_ne htag htag' h]
    cases find (mark tag) rest <;> rfl

theorem plain_closing (h : Plain tag) : Plain ('/' :: tag) := by
  simpa [Plain] using h

theorem extractFrom_element (h : '<' ∉ text) (left : Nat) :
    extractFrom tag (left + 1) (element tag text ++ rest) =
      text :: extractFrom tag left rest := by
  have hopen : find (mark tag) (element tag text ++ rest) =
      some ([], text ++ (mark ('/' :: tag) ++ rest)) := by
    rw [element, List.append_assoc, List.append_assoc]
    exact find_of_prefix (by simp [mark])
  have hclose : find (mark ('/' :: tag)) (text ++ (mark ('/' :: tag) ++ rest)) =
      some (text, rest) := by
    rw [find_skip h, find_of_prefix (by simp [mark]), Option.map_some, List.append_nil]
  simp only [extractFrom, hopen, hclose]

theorem extractFrom_element_ne (htag : Plain tag) (htag' : Plain tag') (h : tag' ≠ tag)
    (htext : '<' ∉ text) (hclosing : '/' :: tag' ≠ tag) (left : Nat) :
    extractFrom tag left (element tag' text ++ rest) = extractFrom tag left rest := by
  rw [element, List.append_assoc, List.append_assoc, extractFrom_mark_ne htag htag' h,
    extractFrom_skip htext, extractFrom_mark_ne htag (plain_closing htag') hclosing]

/-- The texts of the elements with the tag, and no others. -/
theorem extractFrom_document (htag : Plain tag) {nodes : List Node}
    (h : ∀ n ∈ nodes, n.Clear tag) {left : Nat}
    (hleft : (nodes.filterMap (Node.textOf tag)).length ≤ left) :
    extractFrom tag left (document nodes) = nodes.filterMap (Node.textOf tag) := by
  induction nodes generalizing left with
  | nil =>
    cases left with
    | zero => rfl
    | succ left => rfl
  | cons n nodes ih =>
    have hn := h n List.mem_cons_self
    have hrest := fun n hn => h n (List.mem_cons_of_mem _ hn)
    rw [document, List.flatMap_cons]
    cases n with
    | chars content =>
      rw [Node.xml, extractFrom_skip hn]
      exact ih hrest hleft
    | single tag' =>
      rw [Node.xml, extractFrom_mark_ne htag hn.1 hn.2]
      exact ih hrest hleft
    | leaf tag' text =>
      obtain ⟨htag', htext, hclosing⟩ := hn
      by_cases heq : tag' = tag
      · subst heq
        have hsome : (Node.leaf tag' text).textOf tag' = some text := if_pos rfl
        rw [List.filterMap_cons_some hsome] at hleft ⊢
        cases left with
        | zero => cases hleft
        | succ left =>
          rw [Node.xml, extractFrom_element htext]
          exact congrArg _ (ih hrest (Nat.le_of_succ_le_succ hleft))
      · have hnone : (Node.leaf tag' text).textOf tag = none := if_neg heq
        rw [List.filterMap_cons_none hnone] at hleft ⊢
        rw [Node.xml, extractFrom_element_ne htag htag' heq htext hclosing]
        exact ih hrest hleft

theorem length_texts_le (tag : Name) (nodes : List Node) :
    (nodes.filterMap (Node.textOf tag)).length ≤ (document nodes).length := by
  induction nodes with
  | nil => exact Nat.zero_le _
  | cons n nodes ih =>
    rw [document, List.flatMap_cons, List.length_append]
    change _ ≤ _ + (document nodes).length
    cases htext : n.textOf tag with
    | none =>
      rw [List.filterMap_cons_none htext]
      omega
    | some text =>
      have hpos : 0 < n.xml.length := by
        cases n with
        | chars content => cases htext
        | single tag' => cases htext
        | leaf tag' text' => simp [Node.xml, element, mark]
      rw [List.filterMap_cons_some htext, List.length_cons]
      omega

theorem extractTags_document (htag : Plain tag) {nodes : List Node}
    (h : ∀ n ∈ nodes, n.Clear tag) :
    extractTags (document nodes) tag = nodes.filterMap (Node.textOf tag) :=
  extractFrom_document htag h (length_texts_le tag nodes)

end Extract

/-- One page of a listing. -/
structure Page where
  keys : List Name
  truncated : Bool

/-- The keys after a place, in order. -/
def keysAfter (pre : Name) (place : Option Name) (blobs : Blobs Name Bytes) : List Name :=
  (sortKeys (blobs.keys.filter pre.isPrefixOf)).filter fun key => place.all (· < key)

/-- As many of them as there is room for. -/
def pageAfter (room : Nat) (pre : Name) (place : Option Name) (blobs : Blobs Name Bytes) : Page :=
  ⟨(keysAfter pre place blobs).take (room + 1), room + 1 < (keysAfter pre place blobs).length⟩

/-- Where the next page begins, if there is one. -/
def Page.next (page : Page) : Option Name :=
  if page.truncated then page.keys.getLast? else none

/-- The tags that are looked for. -/
def wanted : List Name := [Tag.key, Tag.isTruncated, Tag.nextContinuationToken]

/-- A text says what is on the page: whatever else is in it, the elements that are looked for are
the page's, and the token, if there is one, stands for the place after the page. -/
def Page.Says (place : Name → Name) (page : Page) (text : Name) : Prop :=
  ∃ nodes, text = document nodes ∧ (∀ tag ∈ wanted, ∀ n ∈ nodes, n.Clear tag) ∧
    nodes.filterMap (Node.textOf Tag.key) = page.keys ∧
    nodes.filterMap (Node.textOf Tag.isTruncated) = [boolText page.truncated] ∧
    (nodes.filterMap (Node.textOf Tag.nextContinuationToken)).map place = page.next.toList

/-- What is read of a text that says what is on a page. -/
theorem Page.Says.read {place : Name → Name} {page : Page} {text : Name}
    (h : page.Says place text) : extractTags text Tag.key = page.keys ∧
      extractTags text Tag.isTruncated = [boolText page.truncated] ∧
      (extractTags text Tag.nextContinuationToken).map place = page.next.toList := by
  obtain ⟨nodes, rfl, hclear, hkeys, htruncated, hnext⟩ := h
  have hplain : ∀ tag ∈ wanted, Plain tag := by decide
  have hread {tag : Name} (htag : tag ∈ wanted) :
      extractTags (document nodes) tag = nodes.filterMap (Node.textOf tag) :=
    extractTags_document (hplain tag htag) (hclear tag htag)
  refine ⟨(hread ?_).trans hkeys, (hread ?_).trans htruncated, (congrArg _ (hread ?_)).trans hnext⟩
  · exact List.mem_cons_self
  · exact List.mem_cons_of_mem _ List.mem_cons_self
  · exact List.mem_cons_of_mem _ (List.mem_cons_of_mem _ List.mem_cons_self)

/-- A character that stands for itself in XML. -/
def Plainly (c : Char) : Prop := 32 ≤ c.toNat ∧ c.toNat ∉ [34, 38, 39, 60, 62]

instance (c : Char) : Decidable (Plainly c) := inferInstanceAs (Decidable (_ ∧ _))

/-- No key has a character that XML escapes. -/
def Legible (blobs : Blobs Name Bytes) : Prop := ∀ key ∈ blobs.keys, ∀ c ∈ key, Plainly c

/-- Character by character of the keys, as there are too many characters. -/
instance (blobs : Blobs Name Bytes) : Decidable (Legible blobs) :=
  decidable_of_iff (blobs.keys.all fun key => key.all fun c => decide (Plainly c))
    (by simp [Legible])

/-- What R2 documents of listings: a page is of the keys with the prefix, in order, from where its
token says, as many as R2 likes; it is said as XML, with a token for the next page that stands for
where this one ends; and nothing changes. -/
structure Service.Lists {ν : Type} (R : Service ν) (place : Name → Name) : Prop where
  pages : ∀ x pre token blobs, Legible blobs → (R.serve x (.list pre token) blobs).1.status = 200 →
    ∃ room, (pageAfter room pre (token.map place) blobs).Says place
      (R.serve x (.list pre token) blobs).1.text
  keeps : ∀ x pre token blobs, (R.serve x (.list pre token) blobs).2 = blobs

/-- The keys of the pages so far, each of a bucket that meets the assertion, and where the next page
begins. -/
inductive Scanned (P : Bucket → Prop) (pre : Name) : List Name → Option Name → Prop
  | start : Scanned P pre [] none
  | more {keys : List Name} {place : Option Name} {s : Bucket} {room : Nat} {last : Name}
      (h : Scanned P pre keys place) (hs : P s)
      (hnext : (pageAfter room pre place s.blobs).next = some last) :
      Scanned P pre (keys ++ (pageAfter room pre place s.blobs).keys) (some last)

/-- The last page ends the scan. -/
def Complete (P : Bucket → Prop) (pre : Name) (keys : List Name) : Prop :=
  ∃ before place s room, Scanned P pre before place ∧ P s ∧
    (pageAfter room pre place s.blobs).next = none ∧
    keys = sortKeys (before ++ (pageAfter room pre place s.blobs).keys)

section Under

variable {ν : Type} {R : Service ν} {P : Bucket → Prop} {pre : Name} {place : Name → Name}

/-- Nothing is required of the answers. -/
abbrev anything (_ : Chance ν) (_ : Request) (_ : Bucket) : Prop := True

/-- What a program comes to if an assertion about the bucket holds all along, and it is no error. -/
abbrev Yields {α : Type} (R : Service ν) (P : Bucket → Prop) (Good : α → Prop) (m : Call α)
    (seen : Bucket) : Prop :=
  m.Under R.endpoint anything P Forgets (fun result => ∀ v, result = .ok v → Good v) seen

/-- What an operation comes to is what one of its replies is read as. -/
theorem withRetries_yields {α : Type} {Good : α → Prop} {r : Request}
    {read : Reply → Except Failure (Option α)}
    (h : ∀ e s reply v, P (R.exec e r s).2 → (R.exec e r s).1 = some reply →
      read reply = .ok (some v) → Good v) (left : Nat) (last : Failure) (seen : Bucket) :
    Yields R P Good (withRetries (request r read) left last) seen := by
  induction left generalizing last seen with
  | zero =>
    intro v heq
    cases heq
  | succ left ih =>
    intro e s _ _ _ hafter
    change Yields R P Good (afterAttempt _ (received read (R.exec e r s).1)) _
    cases hreply : (R.exec e r s).1 with
    | none => exact ih _ _
    | some reply =>
      rw [received]
      cases hread : read reply with
      | error err => exact ih err _
      | ok got =>
        cases got with
        | none => exact ih .transient _
        | some v =>
          intro w heq
          cases heq
          exact h e s reply v hafter hreply hread

theorem onList_eq {reply : Reply} {xml : Name} (h : onList pre reply = .ok (some xml)) :
    reply.status = 200 ∧ xml = reply.text := by
  unfold onList at h
  split_ifs at h with h200
  · cases h
    exact ⟨h200, rfl⟩
  · exact absurd h (otherwise_ne _ _ _ _)

/-- A page that is read was said of the bucket as the request leaves it. -/
theorem list_reply (hR : R.Lists place) {e : Chance ν} {s : Bucket} {reply : Reply}
    {token : Option Name} {xml : Name} (hlegible : Legible (R.exec e (.list pre token) s).2.blobs)
    (hreply : (R.exec e (.list pre token) s).1 = some reply)
    (hread : onList pre reply = .ok (some xml)) :
    ∃ room, (pageAfter room pre (token.map place) (R.exec e (.list pre token) s).2.blobs).Says
      place xml := by
  obtain ⟨rfl, heq⟩ := exec_answer hreply
  obtain ⟨h200, rfl⟩ := onList_eq hread
  have hblobs : (R.exec e (.list pre token) s).2.blobs = R.atArrival s e.late := by
    rw [heq]
    exact hR.keeps _ _ _ _
  rw [hblobs] at hlegible ⊢
  exact hR.pages _ _ _ _ hlegible h200

theorem mem_pageAfter {room : Nat} {place : Option Name} {blobs : Blobs Name Bytes} {key : Name}
    (h : key ∈ (pageAfter room pre place blobs).keys) :
    key ∈ blobs.keys ∧ pre <+: key ∧ place.all (· < key) := by
  obtain ⟨hin, hplace⟩ := List.mem_filter.mp (List.mem_of_mem_take h)
  obtain ⟨hkey, hpre⟩ := List.mem_filter.mp (FsStore.mem_sortKeys.mp hin)
  exact ⟨hkey, List.isPrefixOf_iff_prefix.mp hpre, hplace⟩

theorem listFrom_yields (hR : R.Lists place) (hlegible : ∀ s, P s → Legible s.blobs)
    {keys : List Name} {token : Option Name} (h : Scanned P pre keys (token.map place))
    (pages : Nat) (seen : Bucket) :
    Yields R P (Complete P pre) (listFrom pre pages keys token) seen := by
  induction pages generalizing keys token seen with
  | zero =>
    intro keys heq
    cases heq
  | succ pages ih =>
    have hpage : Yields R P
        (fun xml => ∃ s room, P s ∧ (pageAfter room pre (token.map place) s.blobs).Says place xml)
        (withRetries (request (.list pre token) (onList pre)) retries .noAttempts) seen := by
      refine withRetries_yields (fun e s reply xml hs hreply hread => ?_) _ _ _
      obtain ⟨room, hsays⟩ := list_reply hR (hlegible _ hs) hreply hread
      exact ⟨_, room, hs, hsays⟩
    refine Prog.Under.attempt (fun _ _ _ => trivial) hpage ?_
    rintro xml seen' - ⟨s, room, hs, hsays⟩
    have hmore : ∀ last, (pageAfter room pre (token.map place) s.blobs).next = some last →
        Scanned P pre (keys ++ (pageAfter room pre (token.map place) s.blobs).keys) (some last) :=
      fun last hnext => .more h hs hnext
    have hend : (pageAfter room pre (token.map place) s.blobs).next = none →
        Complete P pre (sortKeys (keys ++ (pageAfter room pre (token.map place) s.blobs).keys)) :=
      fun hnext => ⟨keys, _, s, room, h, hs, hnext, rfl⟩
    generalize pageAfter room pre (token.map place) s.blobs = page at hsays hmore hend
    obtain ⟨hkeys, htruncated, hnext⟩ := hsays.read
    simp only [hkeys, htruncated, List.head?_cons]
    split
    · cases htoken : (extractTags xml Tag.nextContinuationToken).head? with
      | none =>
        rw [List.head?_eq_none_iff.mp htoken] at hnext
        intro keys heq
        cases heq
        exact hend (Option.toList_eq_nil_iff.mp hnext.symm)
      | some token' =>
        obtain ⟨rest, hrest⟩ := List.head?_eq_some_iff.mp htoken
        rw [hrest, List.map_cons] at hnext
        refine ih (hmore (place token') ?_) _
        cases hpage : page.next with
        | none =>
          rw [hpage] at hnext
          cases hnext
        | some last =>
          rw [hpage] at hnext
          rw [(List.cons.inj hnext).1]
    · next hnot =>
      have hnone : page.next = none := by
        cases htruncated : page.truncated with
        | true => exact absurd (by rw [htruncated]) hnot
        | false => simp [Page.next, htruncated]
      intro keys heq
      cases heq
      exact hend hnone

end Under

section Pages

variable {room : Nat} {pre : Name} {token : Option Name} {blobs : Blobs Name Bytes}

theorem keysAfter_sorted (pre : Name) (token : Option Name) (blobs : Blobs Name Bytes) :
    (keysAfter pre token blobs).Pairwise (· < ·) := by
  apply List.Pairwise.filter
  have hsorted := FsStore.sortKeys_sorted (blobs.keys.filter pre.isPrefixOf)
  have hnodup : (sortKeys (blobs.keys.filter pre.isPrefixOf)).Nodup :=
    (List.perm_insertionSort _ _).nodup_iff.mpr (blobs.keys_nodup.filter _)
  exact (hsorted.and hnodup).imp fun h => lt_of_le_of_ne h.1 h.2

theorem page_sorted : (pageAfter room pre token blobs).keys.Pairwise (· < ·) :=
  (keysAfter_sorted pre token blobs).sublist (List.take_sublist _ _)

/-- The next page begins after all the keys of this one. -/
theorem le_next {last key : Name} (h : (pageAfter room pre token blobs).next = some last)
    (hkey : key ∈ (pageAfter room pre token blobs).keys) : key ≤ last := by
  have hsorted : (pageAfter room pre token blobs).keys.Pairwise (· < ·) := page_sorted
  rw [Page.next] at h
  split at h
  · obtain ⟨before, heq⟩ := List.getLast?_eq_some_iff.mp h
    rw [heq] at hsorted hkey
    obtain hbefore | hlast := List.mem_append.mp hkey
    · exact ((List.pairwise_append.mp hsorted).2.2 key hbefore last List.mem_cons_self).le
    · exact (List.mem_singleton.mp hlast).le
  · cases h

/-- A key that is not on the page is on a later one. -/
theorem mem_page_or_next {key : Name} (hkey : key ∈ blobs.keys) (hpre : pre <+: key)
    (htoken : token.all (· < key)) :
    key ∈ (pageAfter room pre token blobs).keys ∨
      ∃ last, (pageAfter room pre token blobs).next = some last ∧ last < key := by
  have hafter : key ∈ keysAfter pre token blobs := by
    refine List.mem_filter.mpr ⟨FsStore.mem_sortKeys.mpr ?_, htoken⟩
    exact List.mem_filter.mpr ⟨hkey, List.isPrefixOf_iff_prefix.mpr hpre⟩
  have hsorted := keysAfter_sorted pre token blobs
  rw [pageAfter, Page.next]
  generalize keysAfter pre token blobs = keys at hafter hsorted ⊢
  rw [← List.take_append_drop (room + 1) keys] at hafter hsorted
  obtain htake | hdrop := List.mem_append.mp hafter
  · exact .inl htake
  · have hlong : room + 1 < keys.length := by
      have hpos := List.length_pos_of_mem hdrop
      rw [List.length_drop] at hpos
      omega
    have hne : keys.take (room + 1) ≠ [] := by
      intro hnil
      have hlen := congrArg List.length hnil
      rw [List.length_take, List.length_nil] at hlen
      omega
    refine .inr ⟨(keys.take (room + 1)).getLast hne, ?_, ?_⟩
    · rw [if_pos (decide_eq_true hlong), List.getLast?_eq_some_getLast hne]
    · exact (List.pairwise_append.mp hsorted).2.2 _ (List.getLast_mem hne) key hdrop

end Pages

section Scan

variable {P : Bucket → Prop} {pre : Name} {keys : List Name} {token : Option Name}

/-- The page after a token adds keys that are greater than all before. -/
theorem append_page_sorted {room : Nat} {blobs : Blobs Name Bytes}
    (h : keys.Pairwise (· < ·)) (hle : ∀ key ∈ keys, ∃ last, token = some last ∧ key ≤ last) :
    (keys ++ (pageAfter room pre token blobs).keys).Pairwise (· < ·) := by
  refine List.pairwise_append.mpr ⟨h, page_sorted, fun key hkey key' hkey' => ?_⟩
  obtain ⟨last, rfl, hkeyLe⟩ := hle key hkey
  exact hkeyLe.trans_lt (by simpa using (mem_pageAfter hkey').2.2)

theorem Scanned.sorted (h : Scanned P pre keys token) :
    keys.Pairwise (· < ·) ∧ ∀ key ∈ keys, ∃ last, token = some last ∧ key ≤ last := by
  induction h with
  | start => exact ⟨.nil, fun key hkey => by cases hkey⟩
  | @more keys token s room last _ _ hnext ih =>
    refine ⟨append_page_sorted ih.1 ih.2, fun key hkey => ⟨last, rfl, ?_⟩⟩
    obtain hold | hnew := List.mem_append.mp hkey
    · obtain ⟨last', rfl, hle⟩ := ih.2 key hold
      have hmem : last ∈ (pageAfter room pre (some last') s.blobs).keys := by
        rw [Page.next] at hnext
        split at hnext
        · exact List.mem_of_getLast? hnext
        · cases hnext
      exact hle.trans (le_of_lt (by simpa using (mem_pageAfter hmem).2.2))
    · exact le_next hnext hnew

theorem Scanned.mem (h : Scanned P pre keys token) {key : Name} (hkey : key ∈ keys) :
    pre <+: key ∧ ∃ s, P s ∧ key ∈ s.blobs.keys := by
  induction h with
  | start => cases hkey
  | @more keys token s room last _ hs _ ih =>
    obtain hold | hnew := List.mem_append.mp hkey
    · exact ih hold
    · exact ⟨(mem_pageAfter hnew).2.1, s, hs, (mem_pageAfter hnew).1⟩

theorem Scanned.sees (h : Scanned P pre keys token) {key : Name}
    (hthere : ∀ s, P s → key ∈ s.blobs.keys) (hpre : pre <+: key) :
    key ∈ keys ∨ token.all (· < key) := by
  induction h with
  | start => exact .inr rfl
  | @more keys token s room last _ hs hnext ih =>
    obtain hfound | htoken := ih
    · exact .inl (List.mem_append_left _ hfound)
    · obtain hpage | ⟨last', hnext', hlt⟩ := mem_page_or_next (hthere s hs) hpre htoken
      · exact .inl (List.mem_append_right _ hpage)
      · obtain rfl := Option.some.inj (hnext.symm.trans hnext')
        exact .inr (by simpa using hlt)

theorem Complete.sorted (h : Complete P pre keys) : keys.Pairwise (· < ·) := by
  obtain ⟨before, token, s, room, hscan, _, _, rfl⟩ := h
  have happend : (before ++ (pageAfter room pre token s.blobs).keys).Pairwise (· < ·) :=
    append_page_sorted hscan.sorted.1 hscan.sorted.2
  rw [sortKeys, (happend.imp le_of_lt).insertionSort_eq]
  exact happend

theorem Complete.mem (h : Complete P pre keys) {key : Name} (hkey : key ∈ keys) :
    pre <+: key ∧ ∃ s, P s ∧ key ∈ s.blobs.keys := by
  obtain ⟨before, token, s, room, hscan, hs, _, rfl⟩ := h
  rw [FsStore.mem_sortKeys, List.mem_append] at hkey
  obtain hold | hnew := hkey
  · exact hscan.mem hold
  · exact ⟨(mem_pageAfter hnew).2.1, s, hs, (mem_pageAfter hnew).1⟩

theorem Complete.sees (h : Complete P pre keys) {key : Name}
    (hthere : ∀ s, P s → key ∈ s.blobs.keys) (hpre : pre <+: key) : key ∈ keys := by
  obtain ⟨before, token, s, room, hscan, hs, hend, rfl⟩ := h
  rw [FsStore.mem_sortKeys, List.mem_append]
  obtain hfound | htoken := hscan.sees hthere hpre
  · exact .inl hfound
  · obtain hpage | ⟨last, hnext, _⟩ := mem_page_or_next (hthere s hs) hpre htoken
    · exact .inr hpage
    · rw [hend] at hnext
      cases hnext

end Scan

section Runs

variable {ι : Type} [DecidableEq ι]

abbrev ListingConfig (ι : Type) := Config wire Bucket ι (Except Failure (List Name))

variable {ν : Type} {R : Service ν} {place : Name → Name} (hR : R.Lists place)
include hR

/-- What an assertion that holds all along says of a listing's pages. -/
theorem list_complete {P : Bucket → Prop} {pages : Nat} {pre : Name} {c : ListingConfig ι} {i : ι}
    (hstart : c.procs i = .start (R2BlobStore.list pages pre)) {moves : List (ι × Chance ν)}
    (hlegible : c.Throughout R.endpoint (fun d => Legible d.shared.blobs) moves)
    (hP : c.Throughout R.endpoint (fun d => P d.shared) moves) {keys : List Name}
    (hret : ((c.run R.endpoint moves).procs i).prog = .ret (.ok keys)) :
    Complete (fun s => Legible s.blobs ∧ P s) pre keys := by
  have hlist : Yields R (fun s => Legible s.blobs ∧ P s)
      (Complete (fun s => Legible s.blobs ∧ P s) pre) (c.procs i).prog c.shared := by
    rw [hstart]
    exact listFrom_yields hR (fun s hs => hs.1) .start pages _
  have htold : c.Guarded R.endpoint (Tells anything i) moves :=
    Config.guarded_of_forall fun _ _ _ _ _ _ _ _ => trivial
  have hend := hlist.run (fun _ _ _ => trivial) htold (hlegible.and hP)
  rw [hret] at hend
  exact hend keys rfl

/-- Whatever others do to the bucket while its pages are fetched, and whichever requests fail: a
listing has every key with the prefix that is there all along, none that is never there, and each
once and in order. -/
theorem pages_between {pages : Nat} {pre : Name} {c : ListingConfig ι} {i : ι}
    (hstart : c.procs i = .start (R2BlobStore.list pages pre)) {moves : List (ι × Chance ν)}
    (hlegible : c.Throughout R.endpoint (fun d => Legible d.shared.blobs) moves)
    {keys : List Name} (hret : ((c.run R.endpoint moves).procs i).prog = .ret (.ok keys)) :
    (∀ key, pre <+: key → c.Throughout R.endpoint (fun d => key ∈ d.shared.blobs.keys) moves →
        key ∈ keys) ∧
      (∀ key ∈ keys, pre <+: key ∧
        ¬ c.Throughout R.endpoint (fun d => key ∉ d.shared.blobs.keys) moves) ∧
      keys.Pairwise (· < ·) := by
  have hall : c.Throughout R.endpoint (fun _ => True) moves :=
    Config.throughout_of_forall fun _ => trivial
  refine ⟨fun key hpre hthere => ?_, fun key hkey => ⟨?_, fun hnever => ?_⟩, ?_⟩
  · exact (list_complete hR hstart hlegible hthere hret).sees (fun s hs => hs.2) hpre
  · exact ((list_complete (P := fun _ => True) hR hstart hlegible hall hret).mem hkey).1
  · obtain ⟨_, s, hs, hin⟩ := (list_complete (P := fun s => key ∉ s.blobs.keys) hR hstart hlegible
      hnever hret).mem hkey
    exact hs.2 hin
  · exact (list_complete (P := fun _ => True) hR hstart hlegible hall hret).sorted

end Runs

def Tag.contents : Name := ['C', 'o', 'n', 't', 'e', 'n', 't', 's']

/-- What a page is made of, among other things. -/
def Page.nodes (page : Page) : List Node :=
  page.keys.flatMap (fun key => [.single Tag.contents, .leaf Tag.key key,
    .single ('/' :: Tag.contents), .chars ['\n']]) ++
  .leaf Tag.isTruncated (boolText page.truncated) ::
    page.next.toList.map (.leaf Tag.nextContinuationToken)

theorem Page.clear {page : Page} (h : ∀ key ∈ page.keys, '<' ∉ key) {tag : Name}
    (htag : tag ∈ wanted) : ∀ n ∈ page.nodes, n.Clear tag := by
  have hcontents : ∀ tag ∈ wanted, (Plain Tag.contents ∧ Tag.contents ≠ tag) ∧
      Plain ('/' :: Tag.contents) ∧ '/' :: Tag.contents ≠ tag := by decide
  have hclosing : ∀ tag ∈ wanted, ∀ tag' ∈ wanted, Plain tag' ∧ '/' :: tag' ≠ tag := by decide
  have hleaf {tag' text : Name} (htag' : tag' ∈ wanted) (htext : '<' ∉ text) :
      (Node.leaf tag' text).Clear tag :=
    ⟨(hclosing tag htag tag' htag').1, htext, (hclosing tag htag tag' htag').2⟩
  have hline : '<' ∉ ['\n'] := by decide
  intro n hn
  simp only [Page.nodes, List.mem_append, List.mem_flatMap, List.mem_cons, List.not_mem_nil,
    or_false, List.mem_map, Option.mem_toList] at hn
  obtain ⟨key, hkey, rfl | rfl | rfl | rfl⟩ | rfl | ⟨last, hlast, rfl⟩ := hn
  · exact (hcontents tag htag).1
  · exact hleaf (by decide) (h key hkey)
  · exact (hcontents tag htag).2
  · exact hline
  · refine hleaf (by decide) ?_
    cases page.truncated <;> decide
  · refine hleaf (by decide) (h last ?_)
    rw [Page.next] at hlast
    split at hlast
    · exact List.mem_of_getLast? hlast
    · cases hlast

/-- The texts of a page's elements, by their tags. -/
theorem Page.textOf_nodes (page : Page) (tag : Name) :
    page.nodes.filterMap (Node.textOf tag) =
      (if Tag.key = tag then page.keys else []) ++
        (if Tag.isTruncated = tag then [boolText page.truncated] else []) ++
        if Tag.nextContinuationToken = tag then page.next.toList else [] := by
  have hkeys : (page.keys.flatMap fun key => [.single Tag.contents, .leaf Tag.key key,
        .single ('/' :: Tag.contents), .chars ['\n']]).filterMap (Node.textOf tag) =
      if Tag.key = tag then page.keys else [] := by
    induction page.keys with
    | nil => simp
    | cons key keys ih =>
      rw [List.flatMap_cons, List.filterMap_append, ih]
      by_cases h : Tag.key = tag <;> simp [List.filterMap_cons, Node.textOf, h]
  have hnext : (page.next.toList.map (.leaf Tag.nextContinuationToken)).filterMap
      (Node.textOf tag) = if Tag.nextContinuationToken = tag then page.next.toList else [] := by
    cases page.next with
    | none => simp
    | some last => by_cases h : Tag.nextContinuationToken = tag <;> simp [Node.textOf, h]
  rw [Page.nodes, List.filterMap_append, hkeys, List.filterMap_cons, hnext]
  by_cases h : Tag.isTruncated = tag <;> simp [Node.textOf, h]

theorem Page.says {page : Page} (h : ∀ key ∈ page.keys, '<' ∉ key) :
    page.Says id (document page.nodes) := by
  refine ⟨page.nodes, rfl, fun tag htag => Page.clear h htag, ?_, ?_, ?_⟩
  · rw [Page.textOf_nodes, if_pos rfl, if_neg (by decide), if_neg (by decide)]
    simp
  · rw [Page.textOf_nodes, if_neg (by decide), if_pos rfl, if_neg (by decide)]
    simp
  · rw [Page.textOf_nodes, if_neg (by decide), if_neg (by decide), if_pos rfl]
    simp

/-- A service that behaves as documented, with listings, whose tokens are keys. Of a page the room
is up to it. -/
def catalogue : Service (Whim × Nat) where
  serve x r blobs :=
    match r with
    | .list pre token =>
      if x.1 = .unavailable then ({ status := 503 }, blobs)
      else ({ status := 200, text := document (pageAfter x.2 pre token blobs).nodes }, blobs)
    | r => shelf.serve x.1 r blobs

theorem catalogue_lists : catalogue.Lists id where
  pages x pre token blobs hlegible h := by
    have hx : x.1 ≠ .unavailable := by
      intro heq
      simp [catalogue, heq] at h
    have htext : (catalogue.serve x (.list pre token) blobs).1.text =
        document (pageAfter x.2 pre token blobs).nodes := by simp [catalogue, hx]
    refine ⟨x.2, ?_⟩
    rw [htext, Option.map_id]
    refine Page.says fun key hkey hmark => ?_
    exact (hlegible key (mem_pageAfter hkey).1 _ hmark).2 (by decide)
  keeps x pre token blobs := by
    simp only [catalogue]
    split_ifs <;> rfl

/-- A listing, and somebody who deletes a key. -/
def listAndDelete (pre gone : Name) : Bool → Proc wire (Except Failure (List Name))
  | true => .start (R2BlobStore.list 9 pre)
  | false => .start ((R2BlobStore.delete gone).attempt fun _ => .ret (.ok []))

def fourKeys : Bucket :=
  { blobs := ([['a', '1'], ['a', '2'], ['a', '3'], ['b']] : List Name).foldl
      (fun blobs key => blobs.insert key []) ∅ }

/-- A page of two keys, the first of which goes before the second page comes. -/
def deletedLate : List (Bool × Chance (Whim × Nat)) :=
  [(true, { whim := (.serve, 1) }), (false, { whim := (.serve, 1) }),
    (true, { whim := (.serve, 1), fate := .silent false }), (true, { whim := (.serve, 1) })]

set_option maxRecDepth 100000 in
theorem pages_between_deletedLate :
    (∀ key, ['a'] <+: key →
        Config.Throughout catalogue.endpoint (fun d => key ∈ d.shared.blobs.keys)
          ⟨fourKeys, listAndDelete ['a'] ['a', '1']⟩ deletedLate →
        key ∈ [['a', '1'], ['a', '2'], ['a', '3']]) ∧
      (∀ key ∈ [['a', '1'], ['a', '2'], ['a', '3']], ['a'] <+: key ∧
        ¬ Config.Throughout catalogue.endpoint (fun d => key ∉ d.shared.blobs.keys)
          ⟨fourKeys, listAndDelete ['a'] ['a', '1']⟩ deletedLate) ∧
      [['a', '1'], ['a', '2'], ['a', '3']].Pairwise (fun a b : Name => a < b) := by
  have hlegible : Config.Throughout catalogue.endpoint (fun d => Legible d.shared.blobs)
      ⟨fourKeys, listAndDelete ['a'] ['a', '1']⟩ deletedLate := by
    refine ⟨?_, ?_, ?_, ?_, ?_⟩ <;> simp only [Config.Throughout] <;> decide +kernel
  have hstart : listAndDelete ['a'] ['a', '1'] true = .start (R2BlobStore.list 9 ['a']) := rfl
  exact pages_between (i := true) catalogue_lists hstart hlegible rfl

end Fafo.R2
