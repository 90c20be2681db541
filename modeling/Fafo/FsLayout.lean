import Fafo.FsStore

/-! The paths of the store's keys, and the temporary names beside them. -/
namespace Fafo.FsStore

open Listing (Name)

/-- A name that a store gives to a temporary file. -/
def IsTmp (uuid : Name) (path : Path) : Prop := ∃ p, p ≠ [] ∧ path = tmpFor p uuid

/-- The keys in use: each has a path, none is a directory on the way to another, and none has the
form of a temporary name. -/
structure Layout (K : Type) where
  text : K → Name
  path : K → Path
  pathFor_text : ∀ k, pathFor (text k) = some (path k)
  text_injective : Function.Injective text
  prefix_free : ∀ k k', ¬ path k <:+ (path k').tail
  not_tmp : ∀ k uuid, '.' ∉ uuid → ¬ IsTmp uuid (path k)

variable {K : Type}

theorem pathFor_eq_some {key : Name} {path : Path} (h : pathFor key = some path) :
    path = (key.splitOn '/').reverse := by
  simp only [pathFor] at h
  split at h
  · cases h
  · cases h
    rfl

theorem pathFor_injective {key key' : Name} {path : Path} (h : pathFor key = some path)
    (h' : pathFor key' = some path) : key = key' := by
  have hparts : key.splitOn '/' = key'.splitOn '/' := by
    rw [← List.reverse_inj, ← pathFor_eq_some h, ← pathFor_eq_some h']
  calc key = ['/'].intercalate (key.splitOn '/') := (List.intercalate_splitOn _).symm
    _ = key' := by rw [hparts, List.intercalate_splitOn]

theorem afterDot_append (before : Name) {rest : Name} (h : '.' ∉ rest) :
    afterDot (before ++ '.' :: rest) = rest := by
  have hall : ∀ c ∈ rest.reverse, decide (c ≠ '.') = true := by
    intro c hc
    rw [List.mem_reverse] at hc
    exact decide_eq_true fun heq => h (heq ▸ hc)
  unfold afterDot
  rw [List.reverse_append, List.reverse_cons, List.append_assoc, List.takeWhile_append_of_pos hall]
  simp

theorem IsTmp.afterDot_eq {uuid name : Name} {dir : Path} (h : IsTmp uuid (name :: dir))
    (hdot : '.' ∉ uuid) : afterDot name = ['t', 'm', 'p', '-'] ++ uuid := by
  obtain ⟨p, hp, heq⟩ := h
  cases p with
  | nil => exact absurd rfl hp
  | cons first rest =>
    have hmark : '.' ∉ ['t', 'm', 'p', '-'] ++ uuid := by simpa using hdot
    have hname : name = fileStem first ++ '.' :: (['t', 'm', 'p', '-'] ++ uuid) := by
      rw [(List.cons.inj heq).1]
      simp [tmpMark]
    rw [hname, afterDot_append _ hmark]

/-- A temporary name tells the id it was made with. -/
theorem IsTmp.uuid_eq {uuid uuid' : Name} {path : Path} (h : IsTmp uuid path)
    (h' : IsTmp uuid' path) (hdot : '.' ∉ uuid) (hdot' : '.' ∉ uuid') : uuid = uuid' := by
  cases path with
  | nil =>
    obtain ⟨p, hp, heq⟩ := h
    cases p with
    | nil => exact absurd rfl hp
    | cons first rest => cases heq
  | cons name dir =>
    have hsame := (h.afterDot_eq hdot).symm.trans (h'.afterDot_eq hdot')
    exact List.append_cancel_left hsame

namespace Layout

variable (layout : Layout K)

theorem path_injective : Function.Injective layout.path := by
  intro k k' h
  apply layout.text_injective
  have hk := layout.pathFor_text k
  rw [h] at hk
  exact pathFor_injective hk (layout.pathFor_text k')

theorem path_ne_nil (k : K) : layout.path k ≠ [] := by
  rw [pathFor_eq_some (layout.pathFor_text k)]
  simp [List.splitOn_ne_nil]

/-- A directory on the way to a key is not itself a key. -/
theorem path_ne_of_suffix {k k' : K} {dir : Path} (h : dir <:+ (layout.path k).tail) :
    layout.path k' ≠ dir := by
  rintro rfl
  exact layout.prefix_free k' k h

theorem tmp_ne {uuid : Name} {tmp : Path} (h : IsTmp uuid tmp) (hdot : '.' ∉ uuid) (k : K) :
    layout.path k ≠ tmp := by
  rintro rfl
  exact layout.not_tmp k uuid hdot h

end Layout

/-- A name without slashes and dots. -/
abbrev Part := {name : Name // name ≠ [] ∧ '/' ∉ name ∧ '.' ∉ name}

/-- What a part of a key can be. -/
def Proper (part : Name) : Prop :=
  part ≠ [] ∧ part ≠ ['.'] ∧ part ≠ ['.', '.'] ∧ '/' ∉ part

instance (part : Name) : Decidable (Proper part) := inferInstanceAs (Decidable (_ ∧ _))

theorem Proper.checked {part : Name} (h : Proper part) :
    (part.isEmpty || part == ['.'] || part == ['.', '.']) = false := by
  simp only [Bool.or_eq_false_iff, List.isEmpty_eq_false_iff, beq_eq_false_iff_ne]
  exact ⟨⟨h.1, h.2.1⟩, h.2.2.1⟩

theorem pathFor_proper {part : Name} (h : Proper part) : pathFor part = some [part] := by
  have hsplit : part.splitOn '/' = [part] := List.splitOn_eq_singleton h.2.2.2
  simp only [pathFor, hsplit, List.any_cons, List.any_nil, h.checked, Bool.or_false]
  rfl

theorem pathFor_cons {part rest : Name} {path : Path} (h : Proper part)
    (hrest : pathFor rest = some path) :
    pathFor (part ++ '/' :: rest) = some (path ++ [part]) := by
  have hsplit : (part ++ '/' :: rest).splitOn '/' = part :: rest.splitOn '/' :=
    List.splitOn_append_cons_self_of_not_mem h.2.2.2 rest
  simp only [pathFor, hsplit, List.any_cons, h.checked, Bool.false_or] at hrest ⊢
  split at hrest
  · cases hrest
  · rename_i hproper
    obtain rfl := Option.some.inj hrest
    rw [if_neg hproper, List.reverse_cons]

theorem proper_part (part : Part) : Proper part.1 := by
  obtain ⟨name, hne, hslash, hdot⟩ := part
  refine ⟨hne, ?_, ?_, hslash⟩
  · rintro rfl
    exact hdot List.mem_cons_self
  · rintro rfl
    exact hdot List.mem_cons_self

end Fafo.FsStore
