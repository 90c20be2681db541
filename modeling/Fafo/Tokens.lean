import Fafo.EdgeRouting
import Fafo.HexText
import Fafo.Library.Lists
import Fafo.Sessions

/-! Capability tokens: what is minted is accepted until it expires, and what is accepted under the
signature of a minted token is that token. -/
namespace Fafo.Tokens

open Edge (Text splitOnce splitOnce_append)
open HexText (Grants.hex Grants.unhex)
open Sessions (Capability Node Auth)

/-- The JSON of capabilities, and the HMAC of a payload under the cluster's secret. -/
structure Codec where
  toVec : Capability → List UInt8
  fromSlice : List UInt8 → Option Capability
  sign : String → List UInt8 → List UInt8

def tokenPrefix : Text := ['f', 'a', 'f', 'o', '1', '.']

variable (k : Codec) (secret : String)

/-- A payload and a signature, as the two hex halves of a token. -/
def spelled (payload sig : Text) : Text := tokenPrefix ++ (payload ++ '.' :: sig)

def mint (cap : Capability) : Text :=
  let payload := k.toVec cap
  spelled (Grants.hex payload).toList (Grants.hex (k.sign secret payload)).toList

/-- The payload, if the signature is its. -/
def opened (payload sig : List UInt8) : Option Capability :=
  if sig = k.sign secret payload then k.fromSlice payload else none

/-- What a token carries, whether it has expired or not. The outer `none` is a panic. -/
def carried (token : Text) : Option (Option Capability) :=
  match tokenPrefix.isPrefixOf? token with
  | none => some none
  | some rest =>
    match splitOnce '.' rest with
    | none => some none
    | some (payloadHex, sigHex) =>
      match Grants.unhex (String.ofList payloadHex) with
      | none => none
      | some none => some none
      | some (some payload) =>
        match Grants.unhex (String.ofList sigHex) with
        | none => none
        | some none => some none
        | some (some sig) => some (opened k secret payload sig)

def verify (now : Nat) (token : Text) : Option (Option Capability) :=
  (carried k secret token).map fun cap => cap.filter fun c => decide (now < c.exp)

/-- The node whose tokens these are. -/
def node (apiToken : Option String) (durableWills : Bool) : Node where
  apiToken
  signed token := (carried k secret token.toList).join
  durableWills

/-- The token's halves decode to this payload and this signature. -/
def Spells (token : Text) (payload sig : List UInt8) : Prop :=
  ∃ p s, token = spelled p s ∧ '.' ∉ p ∧ Grants.unhex (String.ofList p) = some (some payload) ∧
    Grants.unhex (String.ofList s) = some (some sig)

theorem splitOnce_eq_some {sep : Char} {text a b : Text} :
    splitOnce sep text = some (a, b) ↔ sep ∉ a ∧ text = a ++ sep :: b := by
  constructor
  · intro h
    induction text generalizing a with
    | nil => cases h
    | cons c cs ih =>
      rw [splitOnce] at h
      split at h
      · rename_i hc
        cases h
        exact ⟨List.not_mem_nil, by rw [hc]; rfl⟩
      · rename_i hc
        obtain ⟨⟨a', b'⟩, hrest, heq⟩ := Option.map_eq_some_iff.mp h
        cases heq
        obtain ⟨hnot, rfl⟩ := ih hrest
        refine ⟨fun hmem => ?_, rfl⟩
        rcases List.mem_cons.mp hmem with heq | hmem
        · exact hc heq.symm
        · exact hnot hmem
  · rintro ⟨hnot, rfl⟩
    exact splitOnce_append fun c hc heq => hnot (heq ▸ hc)

section

variable {k : Codec} {secret : String}

/-- What a token carries is a payload of one of its spellings, with that payload's signature. -/
theorem carried_eq_some {token : Text} {cap : Capability} :
    carried k secret token = some (some cap) ↔
      ∃ payload, Spells token payload (k.sign secret payload) ∧ k.fromSlice payload = some cap := by
  constructor
  · intro h
    unfold carried at h
    cases hrest : tokenPrefix.isPrefixOf? token with
    | none => rw [hrest] at h; cases h
    | some rest =>
    rw [hrest] at h
    dsimp only at h
    cases hsplit : splitOnce '.' rest with
    | none => rw [hsplit] at h; cases h
    | some halves =>
    obtain ⟨p, s⟩ := halves
    rw [hsplit] at h
    dsimp only at h
    obtain ⟨hdot, rfl⟩ := splitOnce_eq_some.mp hsplit
    have htoken := List.isPrefixOf?_eq_some_iff_append_eq.mp hrest
    cases hp : Grants.unhex (String.ofList p) with
    | none => rw [hp] at h; cases h
    | some decoded =>
    cases decoded with
    | none => rw [hp] at h; cases h
    | some payload =>
    rw [hp] at h
    dsimp only at h
    cases hs : Grants.unhex (String.ofList s) with
    | none => rw [hs] at h; cases h
    | some decoded =>
    cases decoded with
    | none => rw [hs] at h; cases h
    | some sig =>
    rw [hs] at h
    dsimp only at h
    rw [Option.some.injEq, opened] at h
    split at h
    · rename_i hsig
      subst hsig
      exact ⟨payload, ⟨p, s, htoken.symm, hdot, hp, hs⟩, h⟩
    · cases h
  · rintro ⟨payload, ⟨p, s, rfl, hdot, hp, hs⟩, hcap⟩
    unfold carried
    rw [spelled, Lists.isPrefixOf?_append]
    dsimp only
    rw [splitOnce_eq_some.mpr ⟨hdot, rfl⟩]
    dsimp only
    rw [hp]
    dsimp only
    rw [hs]
    dsimp only
    rw [opened, if_pos rfl, hcap]

theorem verify_eq_some {now : Nat} {token : Text} {cap : Capability} :
    verify k secret now token = some (some cap) ↔
      carried k secret token = some (some cap) ∧ now < cap.exp := by
  unfold verify
  rcases carried k secret token with _ | _ | cap'
  · simp
  · simp
  · simp only [Option.map_some, Option.some.injEq, Option.filter_eq_some_iff, decide_eq_true_eq]

/-- The session's check of a token is this one, where it does not panic. -/
theorem verify_node {now : Nat} {token : String} {apiToken : Option String} {durableWills : Bool} :
    Sessions.verify (node k secret apiToken durableWills) now token =
      (verify k secret now token.toList).join := by
  change ((carried k secret token.toList).join).filter (fun c => decide (now < c.exp)) = _
  unfold verify
  rcases carried k secret token.toList with _ | _ | cap <;> rfl

theorem dot_hex (bytes : List UInt8) : '.' ∉ (Grants.hex bytes).toList := by
  intro hmem
  have hdigit := (HexText.isHex_encode bytes).2 '.' hmem
  exact absurd hdigit (by decide)

theorem spells_mint (cap : Capability) :
    Spells (mint k secret cap) (k.toVec cap) (k.sign secret (k.toVec cap)) := by
  refine ⟨_, _, rfl, dot_hex _, ?_, ?_⟩ <;>
    rw [String.ofList_toList] <;> exact HexText.decode_encode _

theorem Spells.unique {token : Text} {payload payload' sig sig' : List UInt8}
    (h : Spells token payload sig) (h' : Spells token payload' sig') :
    payload = payload' ∧ sig = sig' := by
  obtain ⟨p, s, rfl, hdot, hp, hs⟩ := h
  obtain ⟨p', s', heq, hdot', hp', hs'⟩ := h'
  have hrest : p ++ '.' :: s = p' ++ '.' :: s' := List.append_cancel_left heq
  have hsplit : splitOnce '.' (p ++ '.' :: s) = some (p, s) := splitOnce_eq_some.mpr ⟨hdot, rfl⟩
  rw [hrest, splitOnce_eq_some.mpr ⟨hdot', rfl⟩] at hsplit
  cases hsplit
  rw [hp] at hp'
  rw [hs] at hs'
  cases hp'
  cases hs'
  exact ⟨rfl, rfl⟩

/-- What a header can hold. -/
def Ascii (text : Text) : Prop := ∀ c ∈ text, c.toNat < 128

theorem walk_ascii {bytes : List UInt8} (h : ∀ b ∈ bytes, b.toNat < 128) :
    HexText.walk bytes ≠ none := by
  induction bytes using HexText.walk.induct with
  | case1 a b rest hin =>
    cases rest with
    | nil => exact absurd hin id
    | cons c rest =>
      have hc := h c (by simp)
      have hcontinues : 128 ≤ c.toNat ∧ c.toNat < 192 := of_decide_eq_true hin
      omega
  | case2 a b rest hin hnone =>
    rw [HexText.walk, if_neg hin, hnone]
    exact Option.some_ne_none _
  | case3 a b rest hin byte hbyte ih =>
    rw [HexText.walk, if_neg hin, hbyte]
    have hrest := ih fun b' hb' => h b' (List.mem_cons_of_mem _ (List.mem_cons_of_mem _ hb'))
    intro hnone
    exact hrest (Option.map_eq_none_iff.mp hnone)
  | case4 bytes hshort =>
    rw [HexText.walk]
    · exact Option.some_ne_none _
    · exact hshort

theorem unhex_ascii {text : Text} (h : Ascii text) :
    Grants.unhex (String.ofList text) ≠ none := by
  have hbytes : ∀ b ∈ EntryWire.utf8 (String.ofList text), b.toNat < 128 := by
    rw [HexText.utf8_of_lt (by rwa [String.toList_ofList]), String.toList_ofList]
    intro b hb
    obtain ⟨c, hc, rfl⟩ := List.mem_map.mp hb
    have hlt := h c hc
    rw [UInt8.toNat_ofNat']
    omega
  change HexText.decode (String.ofList text) ≠ none
  by_cases heven : (EntryWire.utf8 (String.ofList text)).length % 2 = 0
  · rw [HexText.decode_eq heven]
    exact walk_ascii hbytes
  · rw [HexText.decode, if_pos heven]
    exact Option.some_ne_none _

theorem carried_ascii {token : Text} (h : Ascii token) : carried k secret token ≠ none := by
  unfold carried
  cases hrest : tokenPrefix.isPrefixOf? token with
  | none => exact Option.some_ne_none _
  | some rest =>
    dsimp only
    cases hsplit : splitOnce '.' rest with
    | none => exact Option.some_ne_none _
    | some halves =>
      obtain ⟨p, s⟩ := halves
      obtain ⟨_, rfl⟩ := splitOnce_eq_some.mp hsplit
      obtain rfl := List.isPrefixOf?_eq_some_iff_append_eq.mp hrest
      have hp : Grants.unhex (String.ofList p) ≠ none :=
        unhex_ascii fun c hc => h c (by simp [hc])
      have hs : Grants.unhex (String.ofList s) ≠ none :=
        unhex_ascii fun c hc => h c (by simp [hc])
      dsimp only
      rcases hp' : Grants.unhex (String.ofList p) with _ | _ | payload
      · exact absurd hp' hp
      · exact Option.some_ne_none _
      · dsimp only
        rcases hs' : Grants.unhex (String.ofList s) with _ | _ | sig
        · exact absurd hs' hs
        · exact Option.some_ne_none _
        · exact Option.some_ne_none _

/-- Whoever made the token could sign nothing: its signature is one of a token that was minted. -/
def Replays (k : Codec) (secret : String) (minted : List Capability) (token : Text) : Prop :=
  ∀ payload sig, Spells token payload sig →
    ∃ cap ∈ minted, sig = k.sign secret (k.toVec cap)

/-- Another payload has the signature of a minted token. -/
def Collides (k : Codec) (secret : String) (minted : List Capability) (token : Text) : Prop :=
  ∃ payload sig, Spells token payload sig ∧ ∃ cap ∈ minted,
    payload ≠ k.toVec cap ∧ k.sign secret payload = k.sign secret (k.toVec cap)

/-- A minted token is accepted as its capability until that expires. Nothing that can come in a
header makes the check panic; and of what can come there without the secret, what is accepted is a
spelling of a minted token, for that token's capability and until that expires: the halves of two
tokens do not go together, unless the signatures collide. -/
theorem accepts_what_was_minted (k : Codec) (secret : String) (minted : List Capability)
    (hjson : ∀ cap ∈ minted, k.fromSlice (k.toVec cap) = some cap) (apiToken : Option String)
    (durableWills : Bool) (now : Nat) :
    (∀ cap ∈ minted, Sessions.verify (node k secret apiToken durableWills) now
        (String.ofList (mint k secret cap)) = if now < cap.exp then some cap else none) ∧
      (∀ token, Ascii token → carried k secret token ≠ none) ∧
      ∀ token, Ascii token → Replays k secret minted token →
        Collides k secret minted token ∨
          ∀ cap, Sessions.verify (node k secret apiToken durableWills) now
              (String.ofList token) = some cap ↔
            cap ∈ minted ∧ now < cap.exp ∧
              Spells token (k.toVec cap) (k.sign secret (k.toVec cap)) := by
  have hverify : ∀ (token : Text) (cap : Capability),
      Sessions.verify (node k secret apiToken durableWills) now (String.ofList token) = some cap ↔
        carried k secret token = some (some cap) ∧ now < cap.exp := by
    intro token cap
    rw [verify_node, String.toList_ofList, ← verify_eq_some, Option.join_eq_some_iff]
  refine ⟨fun cap hcap => ?_, fun token => carried_ascii, fun token _ hreplays => ?_⟩
  · have hcarried : carried k secret (mint k secret cap) = some (some cap) :=
      carried_eq_some.mpr ⟨_, spells_mint cap, hjson cap hcap⟩
    split
    · rename_i hnow
      exact (hverify _ _).mpr ⟨hcarried, hnow⟩
    · rename_i hnow
      refine Option.eq_none_iff_forall_ne_some.mpr fun cap' hcap' => ?_
      obtain ⟨hcarried', hnow'⟩ := (hverify _ _).mp hcap'
      rw [hcarried] at hcarried'
      cases hcarried'
      exact hnow hnow'
  · by_cases hcollides : Collides k secret minted token
    · exact .inl hcollides
    · refine .inr fun cap => ?_
      rw [hverify, carried_eq_some]
      constructor
      · rintro ⟨⟨payload, hspells, hcap⟩, hnow⟩
        obtain ⟨cap', hcap', hsig⟩ := hreplays _ _ hspells
        have hpayload : payload = k.toVec cap' := by
          by_contra hne
          exact hcollides ⟨payload, _, hspells, cap', hcap', hne, hsig⟩
        subst hpayload
        rw [hjson cap' hcap'] at hcap
        cases hcap
        exact ⟨hcap', hnow, hspells⟩
      · rintro ⟨hcap, hnow, hspells⟩
        exact ⟨⟨_, hspells, hjson cap hcap⟩, hnow⟩

theorem ascii_mint (cap : Capability) : Ascii (mint k secret cap) := by
  have hhex : ∀ bytes : List UInt8, Ascii (Grants.hex bytes).toList := fun bytes c hc =>
    HexText.lt_of_toDigit ((HexText.isHex_encode bytes).2 c hc)
  intro c hc
  simp only [mint, spelled, List.mem_append, List.mem_cons] at hc
  rcases hc with hpre | hpayload | rfl | hsig
  · simp only [tokenPrefix, List.mem_cons, List.not_mem_nil, or_false] at hpre
    rcases hpre with rfl | rfl | rfl | rfl | rfl | rfl <;> decide
  · exact hhex _ c hpayload
  · decide
  · exact hhex _ c hsig

end

def reader : Capability := ⟨[⟨"room-*", ["read"]⟩], 100, none⟩

def readerJson : List UInt8 :=
  EntryWire.utf8 ("\x7b\"grants\":[\x7b\"objects\":\"room-*\",\"verbs\":[\"read\"]\x7d]," ++
    "\"exp\":100\x7d")

/-- What the two libraries do with one capability and one secret. -/
def readerCodec : Codec where
  toVec _ := readerJson
  fromSlice payload := if payload = readerJson then some reader else none
  sign _ _ := [38, 101, 47, 194, 159, 31, 212, 99, 203, 138, 93, 199, 103, 55, 54, 64,
    40, 228, 150, 59, 97, 156, 69, 203, 150, 15, 5, 74, 148, 236, 249, 239]

/-- The last second of the token, and the second it expires. -/
theorem accepts_what_was_minted_reader :
    (∀ now, Sessions.verify (node readerCodec "secret" none true) now
        (String.ofList (mint readerCodec "secret" reader)) =
          if now < 100 then some reader else none) ∧
      carried readerCodec "secret" (mint readerCodec "secret" reader) ≠ none ∧
      (Collides readerCodec "secret" [reader] (mint readerCodec "secret" reader) ∨
        ∀ cap, Sessions.verify (node readerCodec "secret" none true) 0
            (String.ofList (mint readerCodec "secret" reader)) = some cap → cap ∈ [reader]) := by
  have hjson : ∀ cap ∈ [reader], readerCodec.fromSlice (readerCodec.toVec cap) = some cap := by
    intro cap hcap
    rw [List.mem_singleton.mp hcap]
    change (if readerJson = readerJson then some reader else none) = some reader
    exact if_pos rfl
  have hreplays : Replays readerCodec "secret" [reader] (mint readerCodec "secret" reader) :=
    fun payload sig h => ⟨reader, List.mem_singleton_self _, (h.unique (spells_mint reader)).2⟩
  have haccepts := fun now =>
    accepts_what_was_minted readerCodec "secret" [reader] hjson none true now
  refine ⟨fun now => (haccepts now).1 reader (List.mem_singleton_self _),
    (haccepts 0).2.1 _ (ascii_mint reader), ?_⟩
  exact ((haccepts 0).2.2 _ (ascii_mint reader) hreplays).imp_right
    fun honly cap hcap => ((honly cap).mp hcap).1

end Fafo.Tokens
