import Encider.Adt.DiscretePDF

/-! What the operations of `DiscretePDF` keep: the sums, the colours, the order of the items. -/

namespace Encider.DiscretePDF

open Zipper

variable {T W : Type}

/-- No red node has a red child. -/
def Colored : DiscretePDF T W → Prop
  | .nil => True
  | .node n l r => Colored l ∧ Colored r ∧
      (n.isBlack = false → isBlack l = true ∧ isBlack r = true)

/-- One of the children is black. -/
def Settled : DiscretePDF T W → Prop
  | .nil => False
  | .node _ l r => isBlack l = true ∨ isBlack r = true

section colors

variable {t l r : DiscretePDF T W} {n : PdfNode T W}

@[simp] theorem isBlack_nil : isBlack (.nil : DiscretePDF T W) = true := rfl

@[simp] theorem isBlack_node : isBlack (.node n l r) = n.isBlack := rfl

@[simp] theorem isBlack_markRed : n.markRed.isBlack = false := rfl

@[simp] theorem isBlack_markBlack : n.markBlack.isBlack = true := rfl

@[simp] theorem item_markRed : n.markRed.item = n.item := rfl

@[simp] theorem item_markBlack : n.markBlack.item = n.item := rfl

@[simp] theorem key_markRed : n.markRed.key = n.key := rfl

@[simp] theorem key_markBlack : n.markBlack.key = n.key := rfl

@[simp] theorem sumWeights_markRed : n.markRed.sumWeights = n.sumWeights := rfl

@[simp] theorem sumWeights_markBlack : n.markBlack.sumWeights = n.sumWeights := rfl

@[simp] theorem weight_markRed : n.markRed.weight = n.weight := rfl

@[simp] theorem weight_markBlack : n.markBlack.weight = n.weight := rfl

@[simp] theorem isBlack_withSum {sum : W} : (n.withSum sum).isBlack = n.isBlack := rfl

@[simp] theorem item_withSum {sum : W} : (n.withSum sum).item = n.item := rfl

@[simp] theorem key_withSum {sum : W} : (n.withSum sum).key = n.key := rfl

theorem markBlack_of_isBlack (h : n.isBlack = true) : n.markBlack = n := by
  obtain ⟨mark, key, weight, sum⟩ := n
  simp [PdfNode.isBlack] at h
  simp [PdfNode.markBlack, h]

@[simp] theorem colored_nil : Colored (.nil : DiscretePDF T W) := trivial

@[simp] theorem colored_node : Colored (.node n l r) ↔ Colored l ∧ Colored r ∧
    (n.isBlack = false → isBlack l = true ∧ isBlack r = true) := Iff.rfl

@[simp] theorem isBlack_markBlack_tree (t : DiscretePDF T W) : isBlack (markBlack t) = true := by
  cases t <;> rfl

@[simp] theorem listed_markBlack (t : DiscretePDF T W) :
    listed PdfNode.item (markBlack t) = listed PdfNode.item t := by
  cases t <;> rfl

@[simp] theorem numNodes_markBlack (t : DiscretePDF T W) :
    (markBlack t).numNodes = t.numNodes := by
  cases t <;> rfl

theorem Colored.markBlack (h : Colored t) : Colored (markBlack t) := by
  cases t with
  | nil => trivial
  | node n l r => exact ⟨h.1, h.2.1, by simp⟩

/-- The children of a red node stay settled when it is marked black. -/
theorem Colored.settled (h : Colored t) (ht : isBlack t = false) :
    Settled (DiscretePDF.markBlack t) := by
  cases t with
  | nil => simp at ht
  | node n l r => exact .inl (h.2.2 ht).1

end colors

section items

/-- What stands in the whole tree, from left to right. -/
def itemsAt (t : DiscretePDF T W) (path : Trail (PdfNode T W)) : List (T × W) :=
  before PdfNode.item path ++ listed PdfNode.item t ++ after PdfNode.item path

@[simp] theorem itemsAt_left (v : PdfNode T W) (l r : DiscretePDF T W) (path : Trail (PdfNode T W)) :
    itemsAt l (⟨.left, v, r⟩ :: path) = itemsAt (.node v l r) path := by
  simp [itemsAt]

@[simp] theorem itemsAt_right (v : PdfNode T W) (l r : DiscretePDF T W)
    (path : Trail (PdfNode T W)) :
    itemsAt r (⟨.right, v, l⟩ :: path) = itemsAt (.node v l r) path := by
  simp [itemsAt]

theorem mem_itemsAt (v : PdfNode T W) (l r : DiscretePDF T W) (path : Trail (PdfNode T W)) :
    v.item ∈ itemsAt (.node v l r) path := by
  simp [itemsAt]

theorem not_settled {v : PdfNode T W} {l r : DiscretePDF T W} (h : ¬ Settled (.node v l r)) :
    isBlack l = false ∧ isBlack r = false := by
  simpa [Settled] using h

end items

theorem rightMost_value (n : PdfNode T W) (left right : DiscretePDF T W)
    (path path' : Trail (PdfNode T W)) :
    (rightMost n left right path).value = (rightMost n left right path').value := by
  induction right generalizing n left path path' with
  | nil => rfl
  | node m l r _ ih => exact ih m l _ _

section below

variable [LinearOrder T] {item : T} {n : PdfSpot T W}

theorem goBelow_left (h : item < n.value.key) :
    goBelow item n = some (n.left, ⟨.left, n.value, n.right⟩ :: n.path) := by
  simp [goBelow, h, h.ne']

theorem goBelow_right (h : n.value.key < item) :
    goBelow item n = some (n.right, ⟨.right, n.value, n.left⟩ :: n.path) := by
  simp [goBelow, h.ne, h.not_gt]

theorem goBelow_self (h : n.value.key = item) : goBelow item n = none := by
  simp [goBelow, h]

end below

section sums

variable [AddCommMonoid W]

/-- Each node has the sum of the weights of its subtree. -/
def Summed : DiscretePDF T W → Prop
  | .nil => True
  | .node n l r => Summed l ∧ Summed r ∧ n.sumWeights = n.weight + sumWeights l + sumWeights r

variable {t l r : DiscretePDF T W} {n : PdfNode T W}

@[simp] theorem summed_nil : Summed (.nil : DiscretePDF T W) := trivial

@[simp] theorem summed_node : Summed (.node n l r) ↔
    Summed l ∧ Summed r ∧ n.sumWeights = n.weight + sumWeights l + sumWeights r := Iff.rfl

@[simp] theorem isBlack_setSum : (setSum n l r).isBlack = n.isBlack := rfl

@[simp] theorem item_setSum : (setSum n l r).item = n.item := rfl

@[simp] theorem key_setSum : (setSum n l r).key = n.key := rfl

@[simp] theorem sumWeights_setSum :
    (setSum n l r).sumWeights = (setSum n l r).weight + sumWeights l + sumWeights r := rfl

theorem Summed.markBlack (h : Summed t) : Summed (markBlack t) := by
  cases t with
  | nil => trivial
  | node n l r => exact h

theorem Summed.sumWeights_eq (h : Summed t) :
    sumWeights t = (listed PdfNode.weight t).sum := by
  induction t with
  | nil => rfl
  | node n l r ihl ihr =>
    have hl := ihl h.1
    have hr := ihr h.2.1
    change n.sumWeights = _
    rw [h.2.2, hl, hr, listed_node, List.sum_append, List.sum_cons]
    ac_rfl

/-- What is above a subtree whose root is black or not: a black root of the whole tree, no red node
with a red child, and the sums are right beside the path. -/
def Above : Bool → Trail (PdfNode T W) → Prop
  | black, [] => black = true
  | black, f :: fs => Summed f.sibling ∧ Colored f.sibling ∧
      (f.value.isBlack = false → black = true ∧ isBlack f.sibling = true) ∧
      Above f.value.isBlack fs

@[simp] theorem above_nil {black : Bool} :
    Above black ([] : Trail (PdfNode T W)) ↔ black = true := Iff.rfl

@[simp] theorem above_cons {black : Bool} {f : Frame (PdfNode T W)} {fs : Trail (PdfNode T W)} :
    Above black (f :: fs) ↔ Summed f.sibling ∧ Colored f.sibling ∧
      (f.value.isBlack = false → black = true ∧ isBlack f.sibling = true) ∧
      Above f.value.isBlack fs := Iff.rfl

/-- A subtree with a black root fits wherever one fits. -/
theorem Above.black {black : Bool} {fs : Trail (PdfNode T W)} (h : Above black fs) :
    Above true fs := by
  cases fs with
  | nil => rfl
  | cons f fs => exact ⟨h.1, h.2.1, fun hf => ⟨rfl, (h.2.2.1 hf).2⟩, h.2.2.2⟩

/-- What is below a node fits it, the node's own sum apart. -/
structure Below (n : PdfSpot T W) : Prop where
  left_summed : Summed n.left
  right_summed : Summed n.right
  left_colored : Colored n.left
  right_colored : Colored n.right
  black : n.value.isBlack = false → isBlack n.left = true ∧ isBlack n.right = true

/-- What `split` makes of a node and what is around it. -/
inductive Splits : PdfSpot T W → PdfSpot T W → Prop
  | root (v l r) : Splits ⟨v, l, r, []⟩ ⟨v, markBlack l, markBlack r, []⟩
  | under (v l r p path) : p.value.isBlack = true →
      Splits ⟨v, l, r, p :: path⟩ ⟨v.markRed, markBlack l, markBlack r, p :: path⟩
  | leftLeft (v l r p b g o path sum) : p.isBlack = false →
      Splits ⟨v, l, r, ⟨.left, p, b⟩ :: ⟨.left, g, o⟩ :: path⟩
        ⟨v.markRed, markBlack l, markBlack r,
          ⟨.left, (p.withSum sum).markBlack, .node (setSum g.markRed b o) b o⟩ :: path⟩
  | rightRight (v l r p b g o path sum) : p.isBlack = false →
      Splits ⟨v, l, r, ⟨.right, p, b⟩ :: ⟨.right, g, o⟩ :: path⟩
        ⟨v.markRed, markBlack l, markBlack r,
          ⟨.right, (p.withSum sum).markBlack, .node (setSum g.markRed o b) o b⟩ :: path⟩
  | rightLeft (v l r p b g o path sum) : p.isBlack = false →
      Splits ⟨v, l, r, ⟨.right, p, b⟩ :: ⟨.left, g, o⟩ :: path⟩
        ⟨(v.markRed.withSum sum).markBlack,
          .node (setSum p b (markBlack l)) b (markBlack l),
          .node (setSum g.markRed (markBlack r) o) (markBlack r) o, path⟩
  | leftRight (v l r p b g o path sum) : p.isBlack = false →
      Splits ⟨v, l, r, ⟨.left, p, b⟩ :: ⟨.right, g, o⟩ :: path⟩
        ⟨(v.markRed.withSum sum).markBlack,
          .node (setSum g.markRed o (markBlack l)) o (markBlack l),
          .node (setSum p (markBlack r) b) (markBlack r) b, path⟩

theorem split_splits {n : PdfSpot T W} {black : Bool} (h : Above black n.path) :
    ∃ n', split n = some n' ∧ Splits n n' := by
  obtain ⟨v, l, r, path⟩ := n
  cases path with
  | nil => exact ⟨_, rfl, .root v l r⟩
  | cons p path =>
    by_cases hp : p.value.isBlack = true
    · exact ⟨_, by simp [split, hp], .under v l r p path hp⟩
    · cases path with
      | nil => simp [hp] at h
      | cons g path =>
        obtain ⟨side, p, b⟩ := p
        obtain ⟨side', g, o⟩ := g
        simp only [Bool.not_eq_true] at hp
        cases side <;> cases side' <;>
          simp only [split, hp, rotate, Spot.up, Spot.down, Spot.tree, reduceCtorEq, if_false,
            if_true, Bool.false_eq_true, Option.bind_eq_bind, Option.bind_some, Option.pure_def]
        · exact ⟨_, rfl, .leftLeft _ _ _ _ _ _ _ _ _ hp⟩
        · exact ⟨_, rfl, .leftRight _ _ _ _ _ _ _ _ _ hp⟩
        · exact ⟨_, rfl, .rightLeft _ _ _ _ _ _ _ _ _ hp⟩
        · exact ⟨_, rfl, .rightRight _ _ _ _ _ _ _ _ _ hp⟩

namespace Splits

variable {n n' : PdfSpot T W} (h : Splits n n')
include h

theorem itemsAt_eq : itemsAt n'.tree n'.path = itemsAt n.tree n.path := by
  cases h <;> simp [itemsAt, Spot.tree]

theorem item_eq : n'.value.item = n.value.item := by
  cases h <;> simp

end Splits

/-- What is below a node and above it fits, the node's own sum apart. -/
structure Fits (n : PdfSpot T W) : Prop where
  left_summed : Summed n.left
  right_summed : Summed n.right
  left_colored : Colored n.left
  right_colored : Colored n.right
  black : n.value.isBlack = false → isBlack n.left = true ∧ isBlack n.right = true
  above : Above n.value.isBlack n.path

/-- Under a red parent the other child of the grandparent is black. -/
def Room (path : Trail (PdfNode T W)) : Prop :=
  ∀ p g path', path = p :: g :: path' → p.value.isBlack = false → isBlack g.sibling = true

theorem Splits.fits {n n' : PdfSpot T W} (h : Splits n n') (hl : Summed n.left)
    (hr : Summed n.right) (hcl : Colored n.left) (hcr : Colored n.right)
    (hblack : n.value.isBlack = true) (hpath : Above true n.path) (hroom : Room n.path) :
    Fits n' := by
  have hl' := hl.markBlack
  have hr' := hr.markBlack
  have hcl' := hcl.markBlack
  have hcr' := hcr.markBlack
  cases h with
  | root v l r => exact ⟨hl', hr', hcl', hcr', by simp, hblack⟩
  | under v l r p path hp =>
    refine ⟨hl', hr', hcl', hcr', by simp, ?_⟩
    simpa [hp] using hpath
  | leftLeft v l r p b g o path sum hp =>
    have ho := hroom _ _ _ rfl hp
    simp only [above_cons, hp] at hpath
    obtain ⟨hb, hcb, hbb, hso, hco, -, hrest⟩ := hpath
    refine ⟨hl', hr', hcl', hcr', by simp, ?_⟩
    simp [hb, hcb, hbb, hso, hco, ho, hrest.black]
  | rightRight v l r p b g o path sum hp =>
    have ho := hroom _ _ _ rfl hp
    simp only [above_cons, hp] at hpath
    obtain ⟨hb, hcb, hbb, hso, hco, -, hrest⟩ := hpath
    refine ⟨hl', hr', hcl', hcr', by simp, ?_⟩
    simp [hb, hcb, hbb, hso, hco, ho, hrest.black]
  | rightLeft v l r p b g o path sum hp =>
    have ho := hroom _ _ _ rfl hp
    simp only [above_cons, hp] at hpath
    obtain ⟨hb, hcb, hbb, hso, hco, -, hrest⟩ := hpath
    exact ⟨⟨hb, hl', by simp⟩, ⟨hr', hso, by simp⟩, ⟨hcb, hcl', by simp [hbb]⟩,
      ⟨hcr', hco, by simp [ho]⟩, by simp, hrest.black⟩
  | leftRight v l r p b g o path sum hp =>
    have ho := hroom _ _ _ rfl hp
    simp only [above_cons, hp] at hpath
    obtain ⟨hb, hcb, hbb, hso, hco, -, hrest⟩ := hpath
    exact ⟨⟨hso, hl', by simp⟩, ⟨hr', hb, by simp⟩, ⟨hco, hcl', by simp [ho]⟩,
      ⟨hcr', hcb, by simp [hbb]⟩, by simp, hrest.black⟩

theorem Fits.left {n : PdfSpot T W} (h : Fits n) :
    Above (isBlack n.left) (⟨.left, n.value, n.right⟩ :: n.path) :=
  ⟨h.right_summed, h.right_colored, h.black, h.above⟩

theorem Fits.right {n : PdfSpot T W} (h : Fits n) :
    Above (isBlack n.right) (⟨.right, n.value, n.left⟩ :: n.path) :=
  ⟨h.left_summed, h.left_colored, fun hn => (h.black hn).symm, h.above⟩

section descend

variable [LinearOrder T] {item : T}

/-- The focus of the loop of `insert`. -/
structure Descent (item : T) (t : DiscretePDF T W) (path : Trail (PdfNode T W)) : Prop where
  summed : Summed t
  colored : Colored t
  above : Above (isBlack t) path
  leads : Leads PdfNode.key item path
  /-- The node and its sibling are not both red. -/
  turned : ∀ f path', path = f :: path' → isBlack t = true ∨ isBlack f.sibling = true
  room : Settled t ∨ Room path

/-- A node whose children are not both red is passed as it is. -/
theorem Descent.fits {v : PdfNode T W} {l r : DiscretePDF T W} {path : Trail (PdfNode T W)}
    (h : Descent item (.node v l r) path) : Fits ⟨v, l, r, path⟩ :=
  ⟨h.summed.1, h.summed.2.1, h.colored.1, h.colored.2.1, h.colored.2.2, h.above⟩

theorem Descent.room_below {v : PdfNode T W} {l r t : DiscretePDF T W} {side : Side}
    {path : Trail (PdfNode T W)} (h : Descent item (.node v l r) path) :
    Room (⟨side, v, t⟩ :: path) := by
  intro p g path' hp hred
  obtain ⟨rfl, rfl⟩ := List.cons.inj hp
  obtain ht | ht := h.turned g path' rfl
  · simp [hred] at ht
  · exact ht

theorem Descent.left {v : PdfNode T W} {l r : DiscretePDF T W} {path : Trail (PdfNode T W)}
    (h : Descent item (.node v l r) path) (hset : Settled (.node v l r)) (hlt : item < v.key) :
    Descent item l (⟨.left, v, r⟩ :: path) where
  summed := h.summed.1
  colored := h.colored.1
  above := h.fits.left
  leads := h.leads.left hlt
  turned f path' hf := by
    obtain ⟨rfl, rfl⟩ := List.cons.inj hf
    exact hset
  room := .inr h.room_below

theorem Descent.right {v : PdfNode T W} {l r : DiscretePDF T W} {path : Trail (PdfNode T W)}
    (h : Descent item (.node v l r) path) (hset : Settled (.node v l r)) (hlt : v.key < item) :
    Descent item r (⟨.right, v, l⟩ :: path) where
  summed := h.summed.2.1
  colored := h.colored.2.1
  above := h.fits.right
  leads := h.leads.right hlt
  turned f path' hf := by
    obtain ⟨rfl, rfl⟩ := List.cons.inj hf
    exact hset.symm
  room := .inr h.room_below

/-- A child that was red and is marked black, wherever it stands after `split`. -/
theorem Colored.descent {t : DiscretePDF T W} {path : Trail (PdfNode T W)} (h : Colored t)
    (ht : isBlack t = false) (hs : Summed t) (hpath : Above true path)
    (hleads : Leads PdfNode.key item path) : Descent item (DiscretePDF.markBlack t) path where
  summed := hs.markBlack
  colored := h.markBlack
  above := by simpa using hpath
  leads := hleads
  turned f path' hf := .inl (by simp)
  room := .inl (h.settled ht)

theorem descendWithin_settled {v : PdfNode T W} {l r : DiscretePDF T W}
    {path : Trail (PdfNode T W)} (h : Settled (.node v l r)) (fuel : Nat) :
    descendWithin item (fuel + 1) (.node v l r) path =
      (goBelow item ⟨v, l, r, path⟩).bind fun p => descendWithin item fuel p.1 p.2 := by
  have hred : (!isBlack l && !isBlack r) = false := by
    obtain h | h := h <;> simp [h]
  simp [descendWithin, hred]

/-- From a node to a child of it that was red, in one turn of the loop or in two. -/
structure Reaches (item : T) (n n' : PdfSpot T W) (t : DiscretePDF T W)
    (path : Trail (PdfNode T W)) : Prop where
  descent : Descent item t path
  smaller : t.numNodes < n.tree.numNodes
  items : itemsAt t path = itemsAt n.tree n.path
  turns : (∀ fuel, (goBelow item n').bind (fun p => descendWithin item fuel p.1 p.2) =
      descendWithin item fuel t path) ∨
    ∀ fuel, (goBelow item n').bind (fun p => descendWithin item (fuel + 1) p.1 p.2) =
      descendWithin item fuel t path

/-- Without a rotation of the node itself. -/
theorem Fits.reaches {v : PdfNode T W} {l r : DiscretePDF T W} {path : Trail (PdfNode T W)}
    {n : PdfSpot T W} (hf : Fits ⟨v, markBlack l, markBlack r, path⟩)
    (hl : isBlack l = false) (hr : isBlack r = false) (hleft : n.left = l) (hright : n.right = r)
    (hs : Summed n.tree) (hc : Colored n.tree) (hleads : Leads PdfNode.key item path)
    (hitems : itemsAt (.node v (markBlack l) (markBlack r)) path = itemsAt n.tree n.path)
    (hne : v.key ≠ item) :
    ∃ t path', Reaches item n ⟨v, markBlack l, markBlack r, path⟩ t path' := by
  subst hleft hright
  obtain hlt | hlt := hne.symm.lt_or_gt
  · refine ⟨markBlack n.left, ⟨.left, v, markBlack n.right⟩ :: path,
      hc.1.descent hl hs.1 ?_ (hleads.left hlt), ?_, ?_, .inl fun fuel => ?_⟩
    · simpa using hf.left
    · simp [Spot.tree]
    · simpa [itemsAt] using hitems
    · rw [goBelow_left hlt, Option.bind_some]
  · refine ⟨markBlack n.right, ⟨.right, v, markBlack n.left⟩ :: path,
      hc.2.1.descent hr hs.2.1 ?_ (hleads.right hlt), ?_, ?_, .inl fun fuel => ?_⟩
    · simpa using hf.right
    · simp [Spot.tree]
    · simpa [itemsAt] using hitems
    · rw [goBelow_right hlt, Option.bind_some]

/-- With a rotation that brings the node above its parent and its grandparent. -/
theorem Fits.reaches_turned {v a c : PdfNode T W} {l r b o : DiscretePDF T W}
    {path : Trail (PdfNode T W)} {n : PdfSpot T W}
    (hf : Fits ⟨v, .node a b (markBlack l), .node c (markBlack r) o, path⟩)
    (hl : isBlack l = false) (hr : isBlack r = false) (hleft : n.left = l) (hright : n.right = r)
    (hv : n.value.key = v.key) (hs : Summed n.tree) (hc : Colored n.tree)
    (hleads : Leads PdfNode.key item path)
    (hitems : itemsAt (.node v (.node a b (markBlack l)) (.node c (markBlack r) o)) path =
      itemsAt n.tree n.path)
    (hne : n.value.key ≠ item) (hac : a.key < item) (hca : item < c.key) :
    ∃ t path', Reaches item n ⟨v, .node a b (markBlack l), .node c (markBlack r) o, path⟩ t
      path' := by
  subst hleft hright
  rw [hv] at hne
  obtain hlt | hlt := hne.symm.lt_or_gt
  · have hbelow :
        Fits ⟨a, b, markBlack n.left, ⟨.left, v, .node c (markBlack n.right) o⟩ :: path⟩ :=
      ⟨hf.left_summed.1, hf.left_summed.2.1, hf.left_colored.1, hf.left_colored.2.1,
        hf.left_colored.2.2, hf.left⟩
    refine ⟨markBlack n.left, ⟨.right, a, b⟩ :: ⟨.left, v, .node c (markBlack n.right) o⟩ :: path,
      hc.1.descent hl hs.1 ?_ ((hleads.left hlt).right hac), ?_, ?_, .inr fun fuel => ?_⟩
    · simpa using hbelow.right
    · simp [Spot.tree]
    · simpa [itemsAt] using hitems
    · rw [goBelow_left hlt, Option.bind_some, descendWithin_settled (.inr (by simp)),
        goBelow_right hac, Option.bind_some]
  · have hbelow :
        Fits ⟨c, markBlack n.right, o, ⟨.right, v, .node a b (markBlack n.left)⟩ :: path⟩ :=
      ⟨hf.right_summed.1, hf.right_summed.2.1, hf.right_colored.1, hf.right_colored.2.1,
        hf.right_colored.2.2, hf.right⟩
    refine ⟨markBlack n.right, ⟨.left, c, o⟩ :: ⟨.right, v, .node a b (markBlack n.left)⟩ :: path,
      hc.2.1.descent hr hs.2.1 ?_ ((hleads.right hlt).left hca), ?_, ?_, .inr fun fuel => ?_⟩
    · simpa using hbelow.left
    · simp [Spot.tree]
    · simpa [itemsAt] using hitems
    · rw [goBelow_right hlt, Option.bind_some, descendWithin_settled (.inl (by simp)),
        goBelow_left hca, Option.bind_some]

theorem Splits.reaches {n n' : PdfSpot T W} (h : Splits n n') (hf : Fits n')
    (hl : isBlack n.left = false) (hr : isBlack n.right = false) (hs : Summed n.tree)
    (hc : Colored n.tree) (hleads : Leads PdfNode.key item n.path) (hne : n.value.key ≠ item) :
    ∃ t path, Reaches item n n' t path := by
  have hitems := h.itemsAt_eq
  cases h with
  | root v l r => exact hf.reaches hl hr rfl rfl hs hc .nil hitems hne
  | under v l r p path hp => exact hf.reaches hl hr rfl rfl hs hc hleads hitems hne
  | leftLeft v l r p b g o path sum hp =>
    obtain ⟨hp, hleads⟩ := hleads.of_left
    exact hf.reaches hl hr rfl rfl hs hc (hleads.of_left.2.left hp) hitems hne
  | rightRight v l r p b g o path sum hp =>
    obtain ⟨hp, hleads⟩ := hleads.of_right
    exact hf.reaches hl hr rfl rfl hs hc (hleads.of_right.2.right hp) hitems hne
  | rightLeft v l r p b g o path sum hp =>
    obtain ⟨hpk, hleads⟩ := hleads.of_right
    obtain ⟨hgk, hleads⟩ := hleads.of_left
    exact hf.reaches_turned hl hr rfl rfl rfl hs hc hleads hitems hne hpk hgk
  | leftRight v l r p b g o path sum hp =>
    obtain ⟨hpk, hleads⟩ := hleads.of_left
    obtain ⟨hgk, hleads⟩ := hleads.of_right
    exact hf.reaches_turned hl hr rfl rfl rfl hs hc hleads hitems hne hgk hpk

theorem descendWithin_split {v : PdfNode T W} {l r : DiscretePDF T W} {path : Trail (PdfNode T W)}
    {n' : PdfSpot T W} (h : ¬ Settled (.node v l r)) (hn : split ⟨v, l, r, path⟩ = some n')
    (fuel : Nat) :
    descendWithin item (fuel + 1) (.node v l r) path =
      (goBelow item n').bind fun p => descendWithin item fuel p.1 p.2 := by
  obtain ⟨hl, hr⟩ := not_settled h
  simp [descendWithin, hl, hr, hn]

/-- The loop of `insert` ends: at an item of the tree, or at the link where the item goes. -/
theorem Descent.spec {t : DiscretePDF T W} {path : Trail (PdfNode T W)} (h : Descent item t path)
    {fuel : Nat} (hfuel : 2 * t.numNodes + 1 ≤ fuel) :
    (∃ w, (item, w) ∈ itemsAt t path ∧ descendWithin item fuel t path = none) ∨
      ∃ path', descendWithin item fuel t path = some path' ∧ Descent item .nil path' ∧
        itemsAt .nil path' = itemsAt t path := by
  induction fuel using Nat.strong_induction_on generalizing t path with
  | _ fuel ih =>
    cases fuel with
    | zero => omega
    | succ fuel =>
      cases t with
      | nil => exact .inr ⟨path, rfl, h, rfl⟩
      | node v l r =>
        simp only [BinaryTree.numNodes] at hfuel
        by_cases hset : Settled (.node v l r)
        · rw [descendWithin_settled hset]
          obtain hlt | heq | hgt := lt_trichotomy item v.key
          · rw [goBelow_left hlt, Option.bind_some, ← itemsAt_left]
            exact ih fuel (Nat.lt_succ_self _) (h.left hset hlt) (by omega)
          · refine .inl ⟨v.weight, heq ▸ mem_itemsAt v l r path, ?_⟩
            rw [goBelow_self (n := ⟨v, l, r, path⟩) heq.symm, Option.bind_none]
          · rw [goBelow_right hgt, Option.bind_some, ← itemsAt_right]
            exact ih fuel (Nat.lt_succ_self _) (h.right hset hgt) (by omega)
        · obtain ⟨hl, hr⟩ := not_settled hset
          obtain ⟨n', hn, hsplits⟩ := split_splits (n := ⟨v, l, r, path⟩) h.above
          rw [descendWithin_split hset hn]
          have hv : v.isBlack = true := by
            by_contra hred
            have := (h.colored.2.2 (by simpa using hred)).1
            simp [hl] at this
          have hroom : Room path := h.room.resolve_left hset
          have hfits := hsplits.fits h.summed.1 h.summed.2.1 h.colored.1 h.colored.2.1 hv
            h.above.black hroom
          by_cases heq : v.key = item
          · have hkey : n'.value.key = v.key := congrArg Prod.fst hsplits.item_eq
            refine .inl ⟨v.weight, heq ▸ mem_itemsAt v l r path, ?_⟩
            rw [goBelow_self (hkey.trans heq), Option.bind_none]
          · obtain ⟨t, path', hr⟩ :=
              hsplits.reaches hfits hl hr h.summed h.colored h.leads heq
            have hsmall := hr.smaller
            simp only [Spot.tree, BinaryTree.numNodes] at hsmall
            have hitems : itemsAt t path' = itemsAt (.node v l r) path := hr.items
            rw [← hitems]
            obtain hturn | hturn := hr.turns
            · rw [hturn]
              exact ih fuel (Nat.lt_succ_self _) hr.descent (by omega)
            · obtain ⟨fuel, rfl⟩ : ∃ f, fuel = f + 1 := ⟨fuel - 1, by omega⟩
              rw [hturn]
              exact ih fuel (by omega) hr.descent (by omega)

end descend

section propogate

/-- A tree whose sums and colours are right. -/
structure Sound (t : DiscretePDF T W) : Prop where
  summed : Summed t
  colored : Colored t
  black : isBlack t = true

theorem sumUp_sound {t : DiscretePDF T W} {path : Trail (PdfNode T W)} (hs : Summed t)
    (hc : Colored t) (h : Above (isBlack t) path) : Sound (sumUp t path) := by
  induction path generalizing t with
  | nil => exact ⟨hs, hc, h⟩
  | cons f path ih =>
    obtain ⟨side, n, sibling⟩ := f
    obtain ⟨hsib, hcsib, hred, hpath⟩ := h
    cases side with
    | left => exact ih ⟨hs, hsib, by simp⟩ ⟨hc, hcsib, hred⟩ hpath
    | right => exact ih ⟨hsib, hs, by simp⟩ ⟨hcsib, hc, fun hn => (hred hn).symm⟩ hpath

theorem itemsAt_sumUp (t : DiscretePDF T W) (path : Trail (PdfNode T W)) :
    listed PdfNode.item (sumUp t path) = itemsAt t path := by
  induction path generalizing t with
  | nil => simp [sumUp, itemsAt]
  | cons f path ih =>
    obtain ⟨side, n, sibling⟩ := f
    cases side <;> simp [sumUp, ih, itemsAt]

theorem Fits.propogateSumsUp {n : PdfSpot T W} (h : Fits n) : Sound (propogateSumsUp n) :=
  sumUp_sound ⟨h.left_summed, h.right_summed, by simp⟩
    ⟨h.left_colored, h.right_colored, h.black⟩ h.above

theorem itemsAt_propogateSumsUp (n : PdfSpot T W) :
    listed PdfNode.item (DiscretePDF.propogateSumsUp n) = itemsAt n.tree n.path := by
  rw [DiscretePDF.propogateSumsUp, itemsAt_sumUp]
  simp [itemsAt, Spot.tree]

end propogate

section insert

variable [LinearOrder T] {item : T} {t : DiscretePDF T W}

theorem Sound.descent (h : Sound t) (item : T) : Descent item t [] where
  summed := h.summed
  colored := h.colored
  above := h.black
  leads := .nil
  turned _ _ hf := by cases hf
  room := .inr fun _ _ _ hp => by cases hp

/-- What `insert` does, to an item in the tree and to one that is not. -/
theorem Sound.insert (h : Sound t) (item : T) (weight : W) :
    (∃ w, (item, w) ∈ listed PdfNode.item t ∧ insert item weight t = none) ∨
      ∃ t' path, insert item weight t = some t' ∧ Sound t' ∧ Leads PdfNode.key item path ∧
        listed PdfNode.item t = before PdfNode.item path ++ after PdfNode.item path ∧
        listed PdfNode.item t' =
          before PdfNode.item path ++ (item, weight) :: after PdfNode.item path := by
  have hwhole : itemsAt t [] = listed PdfNode.item t := by simp [itemsAt]
  obtain ⟨w, hw, hnone⟩ | ⟨path, hpath, hd, hitems⟩ :=
    (h.descent item).spec (Nat.le_refl _)
  · exact .inl ⟨w, hwhole ▸ hw, by simp [DiscretePDF.insert, descend, hnone]⟩
  · let n : PdfSpot T W := ⟨⟨false, item, weight, 0⟩, .nil, .nil, path⟩
    obtain ⟨n', hn', hsplits⟩ := split_splits (n := n) hd.above
    have hfits := hsplits.fits (by simp [n]) (by simp [n]) (by simp [n]) (by simp [n]) rfl hd.above
      (hd.room.resolve_left fun h => h)
    refine .inr ⟨propogateSumsUp n', path, ?_, hfits.propogateSumsUp, hd.leads, ?_, ?_⟩
    · simp only [DiscretePDF.insert, descend, hpath, Option.bind_eq_bind, Option.bind_some]
      cases path with
      | nil =>
        obtain rfl := Option.some.inj hn'
        rfl
      | cons f path =>
        rw [List.isEmpty_cons, if_neg Bool.false_ne_true, hn']
        rfl
    · simpa [itemsAt, hwhole] using hitems.symm
    · rw [itemsAt_propogateSumsUp, hsplits.itemsAt_eq]
      simp [itemsAt, Spot.tree, n, PdfNode.item]

end insert

section lookup

variable [LinearOrder T] {item : T}

/-- Where `lookup` stops: at the item's node, or at the link where the item would be. -/
structure Found (item : T) (t t' : DiscretePDF T W) (path path' : Trail (PdfNode T W)) : Prop where
  summed : Summed t'
  colored : Colored t'
  above : Above (isBlack t') path'
  leads : Leads PdfNode.key item path'
  items : itemsAt t' path' = itemsAt t path
  key : ∀ n l r, t' = .node n l r → n.key = item

theorem lookup_found {t : DiscretePDF T W} {path : Trail (PdfNode T W)} (hs : Summed t)
    (hc : Colored t) (h : Above (isBlack t) path) (hleads : Leads PdfNode.key item path) :
    Found item t (lookup item t path).1 path (lookup item t path).2 := by
  induction t generalizing path with
  | nil => exact ⟨hs, hc, h, hleads, rfl, fun _ _ _ ht => by cases ht⟩
  | node n l r ihl ihr =>
    have hfits : Fits ⟨n, l, r, path⟩ := ⟨hs.1, hs.2.1, hc.1, hc.2.1, hc.2.2, h⟩
    unfold lookup
    split_ifs with heq hlt
    · refine ⟨hs, hc, h, hleads, rfl, fun n' l' r' ht => ?_⟩
      cases ht
      exact heq
    · have hfound := ihl hs.1 hc.1 hfits.left (hleads.left hlt)
      exact { hfound with items := hfound.items.trans (itemsAt_left n l r path) }
    · have hgt : n.key < item := lt_of_le_of_ne (not_lt.mp hlt) heq
      have hfound := ihr hs.2.1 hc.2.1 hfits.right (hleads.right hgt)
      exact { hfound with items := hfound.items.trans (itemsAt_right n l r path) }

end lookup

section update

variable [LinearOrder T] {item : T} {t : DiscretePDF T W}

theorem Sound.lookup (h : Sound t) (item : T) :
    Found item t (lookup item t []).1 [] (lookup item t []).2 :=
  lookup_found h.summed h.colored h.black .nil

/-- What `update` does, to an item that is not in the tree and to one that is. -/
theorem Sound.update (h : Sound t) (item : T) (weight : W) :
    (∃ path, update item weight t = none ∧ Leads PdfNode.key item path ∧
        listed PdfNode.item t = before PdfNode.item path ++ after PdfNode.item path) ∨
      ∃ t' l r w, update item weight t = some t' ∧ Sound t' ∧
        listed PdfNode.item t = l ++ (item, w) :: r ∧
        listed PdfNode.item t' = l ++ (item, weight) :: r := by
  have hfound := h.lookup item
  have hitems := hfound.items
  unfold DiscretePDF.update
  generalize DiscretePDF.lookup item t [] = p at hfound hitems ⊢
  obtain ⟨t', path⟩ := p
  cases t' with
  | nil =>
    refine .inl ⟨path, rfl, hfound.leads, ?_⟩
    simpa [itemsAt] using hitems.symm
  | node n l r =>
    obtain rfl := hfound.key n l r rfl
    have hs := hfound.summed
    have hc := hfound.colored
    have hfits : Fits ⟨{ n with weight := weight }, l, r, path⟩ :=
      ⟨hs.1, hs.2.1, hc.1, hc.2.1, hc.2.2, hfound.above⟩
    refine .inr ⟨_, before PdfNode.item path ++ listed PdfNode.item l,
      listed PdfNode.item r ++ after PdfNode.item path, n.weight, rfl, hfits.propogateSumsUp,
      ?_, ?_⟩
    · simpa [itemsAt, PdfNode.item] using hitems.symm
    · simp [itemsAt_propogateSumsUp, itemsAt, Spot.tree, PdfNode.item]

end update

section lengthen

/-- The same node where the paths have the same items on both sides. -/
structure Moved (n n' : PdfSpot T W) : Prop where
  left : n'.left = n.left
  right : n'.right = n.right
  above : Above true n'.path
  before : before PdfNode.item n'.path = before PdfNode.item n.path
  after : after PdfNode.item n'.path = after PdfNode.item n.path

theorem raiseSibling_spec {n : PdfSpot T W} {p : Frame (PdfNode T W)} {path : Trail (PdfNode T W)}
    (hn : n.path = p :: path) (h : Above true n.path) :
    ∃ p' path', raiseSibling n = some { n with path := p' :: path' } ∧
      Moved n { n with path := p' :: path' } ∧ isBlack p'.sibling = true ∧
      (path' = path ∨ p'.value.isBlack = false) := by
  obtain ⟨v, l, r, path₀⟩ := n
  subst hn
  obtain ⟨side, p, sibling⟩ := p
  cases sibling with
  | nil => exact ⟨_, _, rfl, ⟨rfl, rfl, h, rfl, rfl⟩, rfl, .inl rfl⟩
  | node s a b =>
    by_cases hs : s.isBlack = true
    · exact ⟨_, _, by simp [raiseSibling, hs], ⟨rfl, rfl, h, rfl, rfl⟩, hs, .inl rfl⟩
    · obtain ⟨⟨hsa, hsb, -⟩, ⟨hca, hcb, hab⟩, hred, hpath⟩ := h
      obtain ⟨ha, hb⟩ := hab (by simpa using hs)
      have hp : p.isBlack = true := by
        by_contra hp
        exact hs (hred (by simpa using hp)).2
      cases side with
      | left =>
        let sum := s.markBlack.weight + p.markRed.sumWeights + sumWeights b
        let path' : Trail (PdfNode T W) := ⟨.left, s.markBlack.withSum sum, b⟩ :: path
        refine ⟨⟨.left, setSum p.markRed (.node v l r) a, a⟩, path', ?_, ⟨rfl, rfl, ?_, ?_, ?_⟩, ha,
          .inr rfl⟩
        · exact if_neg hs
        · simp [path', hsa, hca, ha, hsb, hcb, hp ▸ hpath]
        · simp [path']
        · simp [path']
      | right =>
        let sum := s.markBlack.weight + sumWeights a + p.markRed.sumWeights
        let path' : Trail (PdfNode T W) := ⟨.right, s.markBlack.withSum sum, a⟩ :: path
        refine ⟨⟨.right, setSum p.markRed b (.node v l r), b⟩, path', ?_, ⟨rfl, rfl, ?_, ?_, ?_⟩,
          hb, .inr rfl⟩
        · exact if_neg hs
        · simp [path', hsa, hca, hb, hsb, hcb, hp ▸ hpath]
        · simp [path']
        · simp [path']

/-- The far child of the sibling, seen from a node on this side. -/
def far (side : Side) (l r : DiscretePDF T W) : DiscretePDF T W :=
  match side with
  | .left => r
  | .right => l

/-- After `raiseNephew` the sibling's far child is there. -/
theorem raiseNephew_spec (side : Side) {s : PdfNode T W} {l r : DiscretePDF T W}
    (path : Trail (PdfNode T W)) (hsum : Summed (.node s l r)) (hcol : Colored (.node s l r))
    (hs : s.isBlack = true) (hlr : (isBlack l && isBlack r) = false) :
    ∃ s' l' r', raiseNephew side ⟨s, l, r, path⟩ = some ⟨s', l', r', path⟩ ∧
      s'.isBlack = true ∧ Summed l' ∧ Summed r' ∧ Colored l' ∧ Colored r' ∧
      listed PdfNode.item (.node s' l' r') = listed PdfNode.item (.node s l r) ∧
      far side l' r' ≠ .nil := by
  obtain ⟨hsl, hsr, -⟩ := hsum
  obtain ⟨hcl, hcr, -⟩ := hcol
  cases side with
  | left =>
    by_cases hr : isBlack r = true
    · cases l with
      | nil => simp [hr] at hlr
      | node a b c =>
        have ha : a.isBlack = false := by simpa [hr] using hlr
        obtain ⟨hb, hc⟩ := hcl.2.2 ha
        refine ⟨(a.withSum (a.weight + sumWeights b + s.sumWeights)).markBlack, b,
          .node (setSum s c r).markRed c r, if_pos hr, rfl, hsl.1, ⟨hsl.2.1, hsr, by simp⟩, hcl.1,
          ⟨hcl.2.1, hcr, by simp [hc, hr]⟩, by simp, by simp [far]⟩
    · refine ⟨s, l, r, if_neg hr, hs, hsl, hsr, hcl, hcr, rfl, fun h => hr ?_⟩
      rw [show r = .nil from h]
      rfl
  | right =>
    by_cases hl : isBlack l = true
    · cases r with
      | nil => simp [hl] at hlr
      | node a b c =>
        have ha : a.isBlack = false := by simpa [hl] using hlr
        obtain ⟨hb, hc⟩ := hcr.2.2 ha
        refine ⟨(a.withSum (a.weight + s.sumWeights + sumWeights c)).markBlack,
          .node (setSum s l b).markRed l b, c, if_pos hl, rfl, ⟨hsl, hsr.1, by simp⟩, hsr.2.1,
          ⟨hcl, hcr.1, by simp [hb, hl]⟩, hcr.2.1, by simp, by simp [far]⟩
    · refine ⟨s, l, r, if_neg hl, hs, hsl, hsr, hcl, hcr, rfl, fun h => hl ?_⟩
      rw [show l = .nil from h]
      rfl

theorem takeColor_spec {n : PdfSpot T W} {side : Side} {p s : PdfNode T W} {l r : DiscretePDF T W}
    {path : Trail (PdfNode T W)} (hsl : Summed l) (hsr : Summed r) (hcl : Colored l)
    (hcr : Colored r) (hs : s.isBlack = true) (hpath : Above p.isBlack path)
    (hfar : far side l r ≠ .nil) :
    ∃ path', takeColor side p.isBlack ⟨s, l, r, siblingFrame side p n.tree :: path⟩ =
        some { n with path := path' } ∧
      Moved { n with path := ⟨side, p, .node s l r⟩ :: path } { n with path := path' } := by
  have hup : ∀ c : PdfNode T W, c.isBlack = true →
      Above (if p.isBlack = true then c else c.markRed).isBlack path := by
    intro c hc
    split_ifs with hp
    · simpa [hc, hp] using hpath
    · simpa [hp] using hpath
  have hitem : ∀ c : PdfNode T W, (if p.isBlack = true then c else c.markRed).item = c.item := by
    intro c
    split_ifs <;> rfl
  obtain ⟨v, a, b, path₀⟩ := n
  cases side with
  | left =>
    cases r with
    | nil => simp [far] at hfar
    | node c x y =>
      let sum := s.weight + p.sumWeights + c.sumWeights
      let s' := if p.isBlack = true then s.withSum sum else (s.withSum sum).markRed
      refine ⟨⟨.left, (setSum p (.node v a b) l).markBlack, l⟩ ::
          ⟨.left, s', .node c.markBlack x y⟩ :: path, rfl, rfl, rfl, ?_, ?_, ?_⟩
      · have hs' := hup (s.withSum sum) hs
        refine ⟨hsl, hcl, by simp, hsr, ⟨hcr.1, hcr.2.1, by simp⟩, by simp, ?_⟩
        exact hs'
      · simp
      · simp [s', hitem]
  | right =>
    cases l with
    | nil => simp [far] at hfar
    | node c x y =>
      let sum := s.weight + c.sumWeights + p.sumWeights
      let s' := if p.isBlack = true then s.withSum sum else (s.withSum sum).markRed
      refine ⟨⟨.right, (setSum p r (.node v a b)).markBlack, r⟩ ::
          ⟨.right, s', .node c.markBlack x y⟩ :: path, rfl, rfl, rfl, ?_, ?_, ?_⟩
      · have hs' := hup (s.withSum sum) hs
        refine ⟨hsr, hcr, by simp, hsl, ⟨hcl.1, hcl.2.1, by simp⟩, by simp, ?_⟩
        exact hs'
      · simp [s', hitem]
      · simp

theorem Moved.trans {n₁ n₂ n₃ : PdfSpot T W} (h : Moved n₁ n₂) (h' : Moved n₂ n₃) :
    Moved n₁ n₃ :=
  ⟨h'.left.trans h.left, h'.right.trans h.right, h'.above, h'.before.trans h.before,
    h'.after.trans h.after⟩

/-- `lengthen` of a node: it is black afterwards. -/
def Lengthened (n : PdfSpot T W) (r : Option (PdfSpot T W)) : Prop :=
  ∃ n', r = some n' ∧ n'.value = n.value.markBlack ∧ Moved n n'

theorem Lengthened.of_moved {n n₁ : PdfSpot T W} {r : Option (PdfSpot T W)}
    (h : Lengthened n₁ r) (hm : Moved n n₁) (hv : n₁.value = n.value) : Lengthened n r := by
  obtain ⟨n', hr, hvalue, hm'⟩ := h
  exact ⟨n', hr, hv ▸ hvalue, hm.trans hm'⟩

/-- From the parent back to the node. -/
theorem Lengthened.child {n : PdfSpot T W} {fuel : Nat} {p : Frame (PdfNode T W)}
    {path : Trail (PdfNode T W)} (hn : n.path = p :: path) (hs : Summed p.sibling)
    (hc : Colored p.sibling) (hv : n.value.isBlack = true)
    (h : ∀ parent, parent.value = p.value → parent.path = path →
      Lengthened parent (lengthenWithin fuel parent)) :
    Lengthened n (n.up.bind fun parent =>
      (lengthenWithin fuel parent).bind fun parent => parent.down p.side) := by
  obtain ⟨v, l, r, path₀⟩ := n
  obtain ⟨side, p, sibling⟩ := p
  subst hn
  cases side with
  | left =>
    obtain ⟨⟨q, a, b, path'⟩, hlen, hq, hm⟩ := h ⟨p, .node v l r, sibling, path⟩ rfl rfl
    obtain ⟨hl, hr, habove, hbefore, hafter⟩ := hm
    dsimp only at hl hr hq
    subst hl hr hq
    refine ⟨⟨v, l, r, ⟨.left, p.markBlack, b⟩ :: path'⟩, ?_, (markBlack_of_isBlack hv).symm, rfl,
      rfl, ⟨hs, hc, by simp, habove⟩, before_congr .left rfl rfl hbefore,
      after_congr .left rfl rfl hafter⟩
    simp [Spot.up, Spot.tree, hlen, Spot.down]
  | right =>
    obtain ⟨⟨q, a, b, path'⟩, hlen, hq, hm⟩ := h ⟨p, sibling, .node v l r, path⟩ rfl rfl
    obtain ⟨hl, hr, habove, hbefore, hafter⟩ := hm
    dsimp only at hl hr hq
    subst hl hr hq
    refine ⟨⟨v, l, r, ⟨.right, p.markBlack, a⟩ :: path'⟩, ?_, (markBlack_of_isBlack hv).symm, rfl,
      rfl, ⟨hs, hc, by simp, habove⟩, before_congr .right rfl rfl hbefore,
      after_congr .right rfl rfl hafter⟩
    simp [Spot.up, Spot.tree, hlen, Spot.down]

theorem lengthenWithin_spec {fuel : Nat} {n : PdfSpot T W} (h : Above true n.path)
    (hfuel : n.path.length + 2 ≤ fuel ∨ n.value.isBlack = false ∧ 1 ≤ fuel) :
    Lengthened n (lengthenWithin fuel n) := by
  induction fuel generalizing n with
  | zero => omega
  | succ fuel ih =>
    by_cases hv : n.value.isBlack = true
    · have hv' : (!n.value.isBlack) = false := by simp [hv]
      obtain ⟨v, a, b, path₀⟩ := n
      cases path₀ with
      | nil =>
        refine ⟨⟨v, a, b, []⟩, ?_, (markBlack_of_isBlack hv).symm, rfl, rfl, h, rfl, rfl⟩
        simp [lengthenWithin, hv]
      | cons p path =>
        obtain ⟨p', path', hraise, hm, hsib, hlen⟩ := raiseSibling_spec (n := ⟨v, a, b, p :: path⟩)
          rfl h
        have hfuel' : path'.length + 2 ≤ fuel ∨ p'.value.isBlack = false ∧ 1 ≤ fuel := by
          have := hfuel.resolve_right (by simp [hv])
          rw [List.length_cons] at this
          obtain rfl | hlen := hlen
          · exact .inl (by omega)
          · exact .inr ⟨hlen, by omega⟩
        obtain ⟨hps, hpc, hpred, hppath⟩ := hm.above
        simp only [lengthenWithin, hv', Bool.false_eq_true, if_false, List.isEmpty_cons, hraise,
          Option.bind_eq_bind, Option.bind_some]
        obtain ⟨side, p', sibling⟩ := p'
        have hparent : ∀ parent : PdfSpot T W, parent.value = p' → parent.path = path' →
            Lengthened parent (lengthenWithin fuel parent) := by
          intro parent hvalue hpath
          refine ih (hpath ▸ hppath.black) ?_
          rw [hvalue, hpath]
          exact hfuel'
        cases sibling with
        | nil =>
          exact (Lengthened.child (n := ⟨v, a, b, ⟨side, p', .nil⟩ :: path'⟩) rfl hps hpc hv
            hparent).of_moved hm rfl
        | node s l r =>
          obtain ⟨hsl, hsr, hsum⟩ := hps
          obtain ⟨hcl, hcr, -⟩ := hpc
          dsimp only
          by_cases hlr : (isBlack l && isBlack r) = true
          · have hred : Colored (.node s.markRed l r) := ⟨hcl, hcr, by simpa using hlr⟩
            have hsame : listed PdfNode.item (.node s.markRed l r) =
                listed PdfNode.item (.node s l r) := by simp
            have hbefore : before PdfNode.item (⟨side, p', .node s l r⟩ :: path') =
                before PdfNode.item (p :: path) := hm.before
            have hafter : after PdfNode.item (⟨side, p', .node s l r⟩ :: path') =
                after PdfNode.item (p :: path) := hm.after
            by_cases hp' : p'.isBlack = true
            · rw [if_pos hlr, if_pos hp']
              refine (Lengthened.child (n := ⟨v, a, b, ⟨side, p', .node s.markRed l r⟩ :: path'⟩)
                rfl ⟨hsl, hsr, hsum⟩ hred hv hparent).of_moved ⟨rfl, rfl, ?_, ?_, ?_⟩ rfl
              · exact ⟨⟨hsl, hsr, hsum⟩, hred, fun h => by simp [hp'] at h, hppath⟩
              · exact (before_congr side rfl hsame rfl).trans hbefore
              · exact (after_congr side rfl hsame rfl).trans hafter
            · rw [if_pos hlr, if_neg hp']
              refine ⟨_, rfl, (markBlack_of_isBlack hv).symm, rfl, rfl, ?_, ?_, ?_⟩
              · exact ⟨⟨hsl, hsr, hsum⟩, hred, by simp, hppath.black⟩
              · exact (before_congr side item_markBlack hsame rfl).trans hbefore
              · exact (after_congr side item_markBlack hsame rfl).trans hafter
          · rw [if_neg hlr]
            have hs : s.isBlack = true := hsib
            obtain ⟨s', l', r', hnephew, hs', hsl', hsr', hcl', hcr', hitems, hfar⟩ :=
              raiseNephew_spec side (siblingFrame side p' (.node v a b) :: path')
                ⟨hsl, hsr, hsum⟩ ⟨hcl, hcr, by simp [hs]⟩ hs (by simpa using hlr)
            obtain ⟨q, htake, hm'⟩ := takeColor_spec (n := ⟨v, a, b, p :: path⟩) hsl' hsr' hcl'
              hcr' hs' hppath hfar
            refine ⟨⟨v, a, b, q⟩, ?_, (markBlack_of_isBlack hv).symm, rfl, rfl, hm'.above, ?_, ?_⟩
            · exact (congrArg (Option.bind · (takeColor side p'.isBlack)) hnephew).trans htake
            · exact (hm'.before.trans (before_congr side rfl hitems rfl)).trans hm.before
            · exact (hm'.after.trans (after_congr side rfl hitems rfl)).trans hm.after
    · refine ⟨{ n with value := n.value.markBlack }, ?_, rfl, rfl, rfl, h, rfl, rfl⟩
      simp [lengthenWithin, hv]

theorem lengthen_spec {n : PdfSpot T W} (h : Above true n.path) : Lengthened n (lengthen n) :=
  lengthenWithin_spec h (.inl (Nat.le_refl _))

end lengthen

section remove

theorem unlink_spec {n : PdfSpot T W} {t : DiscretePDF T W} (ht : childOf n = t)
    (hs : Summed t) (hc : Colored t) (hred : n.value.isBlack = false → isBlack t = true)
    (hpath : Above n.value.isBlack n.path) :
    ∃ t', unlink n = some t' ∧ Sound t' ∧ listed PdfNode.item t' = itemsAt t n.path := by
  cases t with
  | nil =>
    exact ⟨sumUp .nil n.path, by simp [unlink, ht], sumUp_sound hs hc hpath.black,
      itemsAt_sumUp _ _⟩
  | node c l r =>
    by_cases hn : n.value.isBlack = true
    · obtain ⟨⟨q, l', r', path⟩, hlen, hq, hl, hr, habove, hbefore, hafter⟩ :=
        lengthen_spec (n := ⟨c, l, r, n.path⟩) hpath.black
      dsimp only at hq hl hr hbefore hafter
      subst hq hl hr
      refine ⟨sumUp (.node c.markBlack l' r') path, by simp [unlink, ht, hn, hlen, Spot.tree],
        sumUp_sound hs ⟨hc.1, hc.2.1, by simp⟩ habove, ?_⟩
      rw [itemsAt_sumUp, itemsAt, hbefore, hafter]
      simp [itemsAt]
    · have hblack := hred (by simpa using hn)
      refine ⟨sumUp (.node c l r) n.path, by simp [unlink, ht, hn, Spot.tree],
        sumUp_sound hs hc (hblack ▸ hpath.black), itemsAt_sumUp _ _⟩

/-- A node without a child on one of its sides leaves the tree. -/
theorem Fits.unlink {n : PdfSpot T W} (h : Fits n) (hchild : n.left = .nil ∨ n.right = .nil) :
    ∃ t', unlink n = some t' ∧ Sound t' ∧ listed PdfNode.item t' =
      before PdfNode.item n.path ++ listed PdfNode.item n.left ++ listed PdfNode.item n.right ++
        after PdfNode.item n.path := by
  obtain ⟨v, left, right, path⟩ := n
  obtain hnil | hnil := hchild
  · dsimp only at hnil
    subst hnil
    have hchild : childOf (⟨v, .nil, right, path⟩ : PdfSpot T W) = right := rfl
    obtain ⟨t', hun, hsound, hitems⟩ := unlink_spec hchild h.right_summed h.right_colored
      (fun hred => (h.black hred).2) h.above
    exact ⟨t', hun, hsound, by simpa [itemsAt] using hitems⟩
  · dsimp only at hnil
    subst hnil
    have hchild : childOf (⟨v, left, .nil, path⟩ : PdfSpot T W) = left := by
      cases left <;> rfl
    obtain ⟨t', hun, hsound, hitems⟩ := unlink_spec hchild h.left_summed h.left_colored
      (fun hred => (h.black hred).1) h.above
    exact ⟨t', hun, hsound, by simpa [itemsAt] using hitems⟩

/-- What `*leftMaxp` is: nothing is to its right in the subtree. -/
theorem rightMost_spec {n : PdfNode T W} {left right : DiscretePDF T W}
    {path : Trail (PdfNode T W)} (h : Fits ⟨n, left, right, path⟩) :
    Fits (rightMost n left right path) ∧ (rightMost n left right path).right = .nil ∧
      after PdfNode.item (rightMost n left right path).path = after PdfNode.item path ∧
      before PdfNode.item (rightMost n left right path).path ++
          (listed PdfNode.item (rightMost n left right path).left ++
            [(rightMost n left right path).value.item]) =
        before PdfNode.item path ++ listed PdfNode.item (.node n left right) := by
  induction right generalizing n left path with
  | nil => exact ⟨h, rfl, rfl, by simp [rightMost]⟩
  | node m l r _ ih =>
    have hs := h.right_summed
    have hc := h.right_colored
    obtain ⟨hfits, hright, hafter, hitems⟩ :=
      ih (⟨hs.1, hs.2.1, hc.1, hc.2.1, hc.2.2, h.right⟩ : Fits ⟨m, l, r, ⟨.right, n, left⟩ :: path⟩)
    exact ⟨hfits, hright, hafter, hitems.trans (by simp)⟩

variable [LinearOrder T] {t : DiscretePDF T W}

/-- What `remove` does, to an item that is not in the tree and to one that is. -/
theorem Sound.remove (h : Sound t) (item : T) :
    (∃ path, remove item t = none ∧ Leads PdfNode.key item path ∧
        listed PdfNode.item t = before PdfNode.item path ++ after PdfNode.item path) ∨
      ∃ t' l r w, remove item t = some t' ∧ Sound t' ∧
        listed PdfNode.item t = l ++ (item, w) :: r ∧ listed PdfNode.item t' = l ++ r := by
  have hfound := h.lookup item
  have hitems := hfound.items
  unfold DiscretePDF.remove
  generalize DiscretePDF.lookup item t [] = p at hfound hitems ⊢
  obtain ⟨t', path⟩ := p
  cases t' with
  | nil =>
    refine .inl ⟨path, rfl, hfound.leads, ?_⟩
    simpa [itemsAt] using hitems.symm
  | node n left r =>
    obtain rfl := hfound.key n left r rfl
    have hs := hfound.summed
    have hc := hfound.colored
    have hfits : Fits ⟨n, left, r, path⟩ := ⟨hs.1, hs.2.1, hc.1, hc.2.1, hc.2.2, hfound.above⟩
    cases left with
    | nil =>
      obtain ⟨t', hun, hsound, hitems'⟩ := hfits.unlink (.inl rfl)
      refine .inr ⟨t', before PdfNode.item path, listed PdfNode.item r ++ after PdfNode.item path,
        n.weight, hun, hsound, ?_, ?_⟩
      · simpa [itemsAt, PdfNode.item] using hitems.symm
      · simpa using hitems'
    | node m l r' =>
      let leftMax := (rightMost m l r' []).value
      let n' : PdfNode T W := { n with key := leftMax.key, weight := leftMax.weight }
      have hm : Fits ⟨m, l, r', ⟨.left, n', r⟩ :: path⟩ :=
        ⟨hs.1.1, hs.1.2.1, hc.1.1, hc.1.2.1, hc.1.2.2, hfits.left⟩
      obtain ⟨hfits', hright, hafter, hbefore⟩ := rightMost_spec hm
      obtain ⟨t', hun, hsound, hitems'⟩ := hfits'.unlink (.inr hright)
      refine .inr ⟨t', before PdfNode.item path ++ listed PdfNode.item (.node m l r'),
        listed PdfNode.item r ++ after PdfNode.item path, n.weight, hun, hsound, ?_, ?_⟩
      · simpa [itemsAt, PdfNode.item] using hitems.symm
      · generalize hs' : rightMost m l r' (⟨.left, n', r⟩ :: path) = s at *
        have hvalue : s.value.item = n'.item := by
          rw [← hs', rightMost_value m l r' _ []]
          rfl
        rw [hvalue, before_left] at hbefore
        rw [hitems', hright, hafter, ← hbefore]
        simp

end remove

end sums

end Encider.DiscretePDF
