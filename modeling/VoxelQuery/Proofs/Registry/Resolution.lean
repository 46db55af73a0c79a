import VoxelQuery.Proofs.Registry.Growth

/-! Names while a registry grows. A block and a material are found under one name each, and what was
found once is found again. A tag is looked for under several names in turn, so a new tag can stand
in front of the one that was found before. -/
namespace VoxelQuery.Registry

/-- The later registry has a tag under a name that comes before the first one under which the text
was found. -/
def ShadowedIn (r next : Registry) (text : String) : Prop :=
  ∃ before start behind, r.tagPrefixes = before ++ start :: behind ∧
    (∀ q ∈ before, r.typeTags.get? (q ++ text) = none) ∧
    (∃ tag, r.typeTags.get? (start ++ text) = some tag) ∧
    ∃ q ∈ before, ∃ tag, next.typeTags.get? (q ++ text) = some tag

/-- A registry that has grown, with the same rules for looking up names. -/
structure Extends (r next : Registry) : Prop where
  within : r.Within next
  tagPrefixes : next.tagPrefixes = r.tagPrefixes
  defaultNamespace : next.defaultNamespace = r.defaultNamespace

variable {r next last : Registry} {text : String}

namespace Extends

theorem refl (r : Registry) : r.Extends r := ⟨.refl r, rfl, rfl⟩

theorem trans (h : r.Extends next) (h' : next.Extends last) : r.Extends last where
  within := h.within.trans h'.within
  tagPrefixes := h'.tagPrefixes.trans h.tagPrefixes
  defaultNamespace := h'.defaultNamespace.trans h.defaultNamespace

theorem of_grows (h : r.Grows next) : r.Extends next where
  within := h.within
  tagPrefixes := by cases h <;> rfl
  defaultNamespace := by cases h <;> rfl

/-- Another block may stand under the identifier, but the identifier is the same. -/
theorem identifier? (h : r.Extends next) (hr : r.Sound) {identifier : String}
    (hid : r.identifier? text = some identifier) : next.identifier? text = some identifier := by
  obtain ⟨found, hfound, hname⟩ := h.within.block _ (hr.hasBlock_of_identifier? hid)
  obtain ⟨block, hblock, rfl⟩ := Option.map_eq_some_iff.1 hid
  have hkey : next.canonical text = block.identifier := by
    rw [(hr.block _ block hblock).1, canonical, canonical, h.defaultNamespace]
  rw [Registry.identifier?, block?, hkey, hfound, Option.map_some, hname]

theorem material? (h : r.Extends next) {m : Material} (hm : r.material? text = some m) :
    next.material? text = some m := h.within.material text m hm

/-- The text still stands for a tag, and for the same one if nothing came to stand in front of it. -/
theorem exists_typeTag? (h : r.Extends next) {tag : TypeTag} (htag : r.typeTag? text = some tag) :
    ∃ found, next.typeTag? text = some found ∧ (¬r.ShadowedIn next text → found = tag) := by
  obtain ⟨before, start, behind, hprefixes, hget, hbefore⟩ := List.findSome?_eq_some_iff.1 htag
  have hstart := h.within.typeTag _ _ hget
  have hsome : ∃ found, next.typeTag? text = some found := by
    apply Option.isSome_iff_exists.1
    rw [typeTag?, List.findSome?_isSome_iff, h.tagPrefixes, hprefixes]
    exact ⟨start, by simp, by rw [hstart]; rfl⟩
  obtain ⟨found, hfound⟩ := hsome
  refine ⟨found, hfound, fun hshadow => ?_⟩
  have hclear : ∀ q ∈ before, next.typeTags.get? (q ++ text) = none := by
    intro q hq
    rw [Option.eq_none_iff_forall_ne_some]
    intro other hother
    exact hshadow ⟨before, start, behind, hprefixes, hbefore, ⟨tag, hget⟩, q, hq, other, hother⟩
  have hsame : next.typeTag? text = some tag :=
    List.findSome?_eq_some_iff.2 ⟨before, start, behind, h.tagPrefixes.trans hprefixes, hstart, hclear⟩
  exact Option.some.inj (hfound.symm.trans hsame)

end Extends

end VoxelQuery.Registry
