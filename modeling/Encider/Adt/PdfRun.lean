import Encider.Adt.PdfItems
import Encider.Lib.Refines

/-! Runs of calls on a `DiscretePDF`: which calls fail, what the tree holds, what `choose` gives. -/

namespace Encider.DiscretePDF

open Zipper

variable {T W : Type} [LinearOrder T]

/-- The weights of the items that are there. An item is inserted where it is not there, and removed
and updated where it is. -/
def Call.model (m : T → Option W) : Call T W → Option (T → Option W)
  | .insert item weight =>
    if (m item).isNone then some (Function.update m item (some weight)) else none
  | .remove item => if (m item).isSome then some (Function.update m item none) else none
  | .update item weight =>
    if (m item).isSome then some (Function.update m item (some weight)) else none

variable [AddCommMonoid W] {t : DiscretePDF T W} {m : T → Option W}

/-- The tree is a red-black search tree with the right sums, and holds these items. -/
structure Represents (t : DiscretePDF T W) (m : T → Option W) : Prop where
  sound : Sound t
  lists : Lists (listed PdfNode.item t) m

/-- A search that ends beside all keys ends where the item would be. -/
theorem Represents.beside (h : Represents t m) {item : T} {path : Trail (PdfNode T W)}
    (hleads : Leads PdfNode.key item path)
    (hitems : listed PdfNode.item t = before PdfNode.item path ++ after PdfNode.item path) :
    (∀ x ∈ (before PdfNode.item path).map Prod.fst, x < item) ∧
      ∀ x ∈ (after PdfNode.item path).map Prod.fst, item < x := by
  have hs := h.lists.ordered
  have hkeys : (before PdfNode.item path).map Prod.fst = before PdfNode.key path :=
    before_map _ _ _
  have hkeys' : (after PdfNode.item path).map Prod.fst = after PdfNode.key path :=
    after_map _ _ _
  rw [hitems, List.map_append, hkeys, hkeys'] at hs
  rw [hkeys, hkeys']
  exact hleads.between [] (by simpa using hs)

theorem Represents.absent (h : Represents t m) {item : T} {path : Trail (PdfNode T W)}
    (hleads : Leads PdfNode.key item path)
    (hitems : listed PdfNode.item t = before PdfNode.item path ++ after PdfNode.item path) :
    m item = none := by
  obtain ⟨hl, hr⟩ := h.beside hleads hitems
  refine h.lists.absent fun hmem => ?_
  rw [hitems, List.map_append] at hmem
  rcases List.mem_append.mp hmem with hmem | hmem
  · exact lt_irrefl _ (hl _ hmem)
  · exact lt_irrefl _ (hr _ hmem)

/-- One call: it fails where it has to, and changes what it should. -/
theorem Represents.call (h : Represents t m) (c : Call T W) :
    Option.Rel Represents (c.run t) (c.model m) := by
  cases c with
  | insert item weight =>
    rw [Call.run, Call.model]
    obtain ⟨w, hw, hnone⟩ | ⟨t', path, hrun, hsound, hleads, hitems, hitems'⟩ :=
      h.sound.insert item weight
    · have hm := (h.lists.entries item w).mp hw
      rw [hnone, hm]
      exact .none
    · rw [hrun, h.absent hleads hitems]
      obtain ⟨hl, hr⟩ := h.beside hleads hitems
      exact .some ⟨hsound, hitems' ▸ (hitems ▸ h.lists).insert hl hr⟩
  | remove item =>
    rw [Call.run, Call.model]
    obtain ⟨path, hnone, hleads, hitems⟩ | ⟨t', l, r, w, hrun, hsound, hitems, hitems'⟩ :=
      h.sound.remove item
    · rw [hnone, h.absent hleads hitems]
      exact .none
    · have hlists := hitems ▸ h.lists
      rw [hrun, hlists.present]
      exact .some ⟨hsound, hitems' ▸ hlists.erase⟩
  | update item weight =>
    rw [Call.run, Call.model]
    obtain ⟨path, hnone, hleads, hitems⟩ | ⟨t', l, r, w, hrun, hsound, hitems, hitems'⟩ :=
      h.sound.update item weight
    · rw [hnone, h.absent hleads hitems]
      exact .none
    · have hlists := hitems ▸ h.lists
      rw [hrun, hlists.present]
      exact .some ⟨hsound, hitems' ▸ hlists.replace weight⟩

theorem Represents.empty : Represents (.nil : DiscretePDF T W) fun _ => none :=
  ⟨⟨trivial, trivial, rfl⟩, .empty⟩

/-- The look-ups. -/
theorem Represents.getWeight_eq (h : Represents t m) (item : T) : getWeight item t = m item := by
  have hfound := h.sound.lookup item
  have hitems := hfound.items
  unfold getWeight
  generalize DiscretePDF.lookup item t [] = p at hfound hitems ⊢
  obtain ⟨t', path⟩ := p
  cases t' with
  | nil =>
    have hsplit : listed PdfNode.item t = before PdfNode.item path ++ after PdfNode.item path := by
      simpa [itemsAt] using hitems.symm
    exact (h.absent hfound.leads hsplit).symm
  | node n l r =>
    obtain rfl := hfound.key n l r rfl
    refine ((h.lists.entries n.key n.weight).mp ?_).symm
    have hmem : (n.key, n.weight) ∈ itemsAt (.node n l r) path := mem_itemsAt n l r path
    rw [hitems] at hmem
    simpa [itemsAt] using hmem

omit [AddCommMonoid W] in
theorem inTree_eq (item : T) (t : DiscretePDF T W) :
    inTree item t = (getWeight item t).isSome := by
  unfold inTree getWeight
  split <;> rfl

/-- Any sequence of calls from the empty tree fails exactly where an item is inserted that is there,
or removed or updated where it is not, and no call dereferences a missing node. After the others
the tree is a red-black search tree with the right sums, which holds the items that are there with
their last weights, and the look-ups find these. -/
theorem run_represents (calls : List (Call T W)) :
    Option.Rel (fun t m => Represents t m ∧ ∀ item, getWeight item t = m item ∧
        inTree item t = (m item).isSome)
      (calls.foldlM Call.run .nil) (calls.foldlM Call.model fun _ => none) := by
  have hrun := Refines.foldlM (fun t m c h => Represents.call h c) .empty calls
  revert hrun
  generalize calls.foldlM Call.run (.nil : DiscretePDF T W) = t
  generalize calls.foldlM Call.model (fun _ => none) = m
  intro hrun
  cases hrun with
  | none => exact .none
  | some h =>
    refine .some ⟨h, fun item => ⟨h.getWeight_eq item, ?_⟩⟩
    rw [inTree_eq, h.getWeight_eq]

end Encider.DiscretePDF
