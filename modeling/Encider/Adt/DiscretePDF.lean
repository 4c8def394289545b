import Encider.Lib.Zipper

/-! `DiscretePDF`: items with weights in a red-black search tree, where each node keeps the sum of
the weights below it. Weights are exact numbers. -/

namespace Encider

open Zipper

/-- A `DiscretePDF::Node` without its links. `m_mark` is set where the node is red. -/
structure PdfNode (T W : Type) where
  m_mark : Bool
  key : T
  weight : W
  sumWeights : W

/-- `m_root`, null where the tree is empty. -/
abbrev DiscretePDF (T W : Type) := BinaryTree (PdfNode T W)

/-- A `Node *` that is not null, with the nodes its `parent` links lead to. -/
abbrev PdfSpot (T W : Type) := Spot (PdfNode T W)

variable {T W : Type}

namespace PdfNode

def markRed (n : PdfNode T W) : PdfNode T W := { n with m_mark := true }

def markBlack (n : PdfNode T W) : PdfNode T W := { n with m_mark := false }

def isBlack (n : PdfNode T W) : Bool := !n.m_mark

def withSum (n : PdfNode T W) (sum : W) : PdfNode T W := { n with sumWeights := sum }

/-- What is seen of a node from outside. -/
def item (n : PdfNode T W) : T × W := (n.key, n.weight)

end PdfNode

namespace DiscretePDF

/-- `leftIsBlack` and `rightIsBlack` of the parent: a missing child counts as black. -/
def isBlack : DiscretePDF T W → Bool
  | .nil => true
  | .node n _ _ => n.isBlack

/-- `markBlack` of a child that may be missing. -/
def markBlack : DiscretePDF T W → DiscretePDF T W
  | .nil => .nil
  | .node n l r => .node n.markBlack l r

/-- A child is marked black that has to be there. -/
def markChildBlack : DiscretePDF T W → Option (DiscretePDF T W)
  | .nil => none
  | .node n l r => some (.node n.markBlack l r)

section sums

variable [AddCommMonoid W]

/-- What a child adds to its parent's sum. -/
def sumWeights : DiscretePDF T W → W
  | .nil => 0
  | .node n _ _ => n.sumWeights

def setSum (n : PdfNode T W) (left right : DiscretePDF T W) : PdfNode T W :=
  n.withSum (n.weight + sumWeights left + sumWeights right)

/-- The parent moves below its child, which gets its sum while the parent still has the old one;
there is none where the node has no parent. -/
def rotate (n : PdfSpot T W) : Option (PdfSpot T W) :=
  match n.path with
  | [] => none
  | ⟨.left, p, sibling⟩ :: pp =>
    let sum := n.value.weight + sumWeights n.left + p.sumWeights
    some ⟨n.value.withSum sum, n.left,
      .node (setSum p n.right sibling) n.right sibling, pp⟩
  | ⟨.right, p, sibling⟩ :: pp =>
    let sum := n.value.weight + p.sumWeights + sumWeights n.right
    some ⟨n.value.withSum sum,
      .node (setSum p sibling n.left) sibling n.left, n.right, pp⟩

/-- It gives the place of the same node afterwards. -/
def split (n : PdfSpot T W) : Option (PdfSpot T W) :=
  let left := markBlack n.left
  let right := markBlack n.right
  match n.path with
  | [] => some ⟨n.value, left, right, []⟩
  | p :: path =>
    let n : PdfSpot T W := ⟨n.value.markRed, left, right, p :: path⟩
    if p.value.isBlack then some n
    else
      match path with
      | [] => none
      | pp :: path => do
        let pp := { pp with value := pp.value.markRed }
        if p.side = pp.side then do
          let n : PdfSpot T W := { n with path := p :: pp :: path }
          let p ← rotate (← n.up)
          ({ p with value := p.value.markBlack } : PdfSpot T W).down pp.side
        else do
          let n ← rotate { n with path := p :: pp :: path }
          let n ← rotate n
          return { n with value := n.value.markBlack }

/-- `for (; n; n=n->parent) n->setSum()`, from the parent of a subtree. -/
def sumUp : DiscretePDF T W → Trail (PdfNode T W) → DiscretePDF T W
  | t, [] => t
  | t, ⟨.left, n, sibling⟩ :: path => sumUp (.node (setSum n t sibling) t sibling) path
  | t, ⟨.right, n, sibling⟩ :: path => sumUp (.node (setSum n sibling t) sibling t) path

def propogateSumsUp (n : PdfSpot T W) : DiscretePDF T W :=
  sumUp (.node (setSum n.value n.left n.right) n.left n.right) n.path

/-- Above the sibling of a node stands the same parent, with the node on the other side. -/
def siblingFrame (side : Side) (p : PdfNode T W) (t : DiscretePDF T W) : Frame (PdfNode T W) :=
  match side with
  | .left => ⟨.right, p, t⟩
  | .right => ⟨.left, p, t⟩

/-- In `lengthen`, a red sibling is rotated up. -/
def raiseSibling (n : PdfSpot T W) : Option (PdfSpot T W) :=
  match n.path with
  | [] => none
  | p :: path =>
    match p.sibling with
    | .nil => some n
    | .node sibling l r =>
      if sibling.isBlack then some n
      else do
        let parent := siblingFrame p.side p.value.markRed n.tree
        let sibling ← rotate ⟨sibling.markBlack, l, r, parent :: path⟩
        (← sibling.down p.side).down p.side

/-- In `lengthen`, the sibling's red child on the side of `n` is rotated up if the other child is
black. -/
def raiseNephew (side : Side) (sibling : PdfSpot T W) : Option (PdfSpot T W) :=
  match side with
  | .left =>
    if isBlack sibling.right then do
      let nephew ← rotate (← sibling.down .left)
      let sibling ← nephew.down .right
      let sibling : PdfSpot T W := { sibling with value := sibling.value.markRed }
      let nephew ← sibling.up
      return { nephew with value := nephew.value.markBlack }
    else some sibling
  | .right =>
    if isBlack sibling.left then do
      let nephew ← rotate (← sibling.down .right)
      let sibling ← nephew.down .left
      let sibling : PdfSpot T W := { sibling with value := sibling.value.markRed }
      let nephew ← sibling.up
      return { nephew with value := nephew.value.markBlack }
    else some sibling

/-- In `lengthen`, the sibling goes up and takes the colour of the parent. -/
def takeColor (side : Side) (parentIsBlack : Bool) (sibling : PdfSpot T W) :
    Option (PdfSpot T W) := do
  let sibling ← rotate sibling
  let value := if parentIsBlack then sibling.value else sibling.value.markRed
  let left ← markChildBlack sibling.left
  let right ← markChildBlack sibling.right
  let sibling : PdfSpot T W := ⟨value, left, right, sibling.path⟩
  (← sibling.down side).down side

/-- It gives the place of the same node afterwards. Each call takes one from `fuel`. -/
def lengthenWithin : Nat → PdfSpot T W → Option (PdfSpot T W)
  | 0, _ => none
  | fuel + 1, n =>
    if !n.value.isBlack then some { n with value := n.value.markBlack }
    else if n.path.isEmpty then some n
    else do
      let n ← raiseSibling n
      match n.path with
      | [] => none
      | p :: path =>
        match p.sibling with
        | .nil => do
          let parent ← n.up
          (← lengthenWithin fuel parent).down p.side
        | .node sibling l r =>
          if isBlack l && isBlack r then
            let n : PdfSpot T W :=
              { n with path := { p with sibling := .node sibling.markRed l r } :: path }
            if p.value.isBlack then do
              let parent ← n.up
              (← lengthenWithin fuel parent).down p.side
            else
              let p : Frame (PdfNode T W) :=
                ⟨p.side, p.value.markBlack, .node sibling.markRed l r⟩
              some { n with path := p :: path }
          else do
            let parent := siblingFrame p.side p.value n.tree
            let sibling ← raiseNephew p.side ⟨sibling, l, r, parent :: path⟩
            takeColor p.side p.value.isBlack sibling

/-- After a rotation the parent is red, and so is the next call's node. -/
def lengthen (n : PdfSpot T W) : Option (PdfSpot T W) :=
  lengthenWithin (n.path.length + 2) n

end sums

section search

variable [LinearOrder T]

/-- `lookup`: the link to the item's node, or the null link where the item would be. -/
def lookup (item : T) : DiscretePDF T W → Trail (PdfNode T W) →
    DiscretePDF T W × Trail (PdfNode T W)
  | .nil, path => (.nil, path)
  | .node n l r, path =>
    if n.key = item then (.node n l r, path)
    else if item < n.key then lookup item l (⟨.left, n, r⟩ :: path)
    else lookup item r (⟨.right, n, l⟩ :: path)

def inTree (item : T) (t : DiscretePDF T W) : Bool :=
  match (lookup item t []).1 with
  | .nil => false
  | .node _ _ _ => true

def getWeight (item : T) (t : DiscretePDF T W) : Option W :=
  match (lookup item t []).1 with
  | .nil => none
  | .node n _ _ => some n.weight

end search

section operations

variable [LinearOrder T] [AddCommMonoid W]

/-- The end of a turn of the loop of `insert`: it fails if the item is in the tree. -/
def goBelow (item : T) (n : PdfSpot T W) :
    Option (DiscretePDF T W × Trail (PdfNode T W)) :=
  if n.value.key = item then none
  else if item < n.value.key then some (n.left, ⟨.left, n.value, n.right⟩ :: n.path)
  else some (n.right, ⟨.right, n.value, n.left⟩ :: n.path)

/-- The loop of `insert`, to the null link where the item goes. Each turn takes one from `fuel`. -/
def descendWithin (item : T) : Nat → DiscretePDF T W → Trail (PdfNode T W) →
    Option (Trail (PdfNode T W))
  | 0, _, _ => none
  | _ + 1, .nil, path => some path
  | fuel + 1, .node n l r, path => do
    let n ← if !isBlack l && !isBlack r then split ⟨n, l, r, path⟩ else some ⟨n, l, r, path⟩
    let (child, path) ← goBelow item n
    descendWithin item fuel child path

/-- A turn that rotates the node above its parent is followed by a turn at the old parent, which
goes on below the node. -/
def descend (item : T) (t : DiscretePDF T W) : Option (Trail (PdfNode T W)) :=
  descendWithin item (2 * t.numNodes + 1) t []

def insert (item : T) (weight : W) (t : DiscretePDF T W) : Option (DiscretePDF T W) := do
  let path ← descend item t
  let n : PdfSpot T W := ⟨⟨false, item, weight, 0⟩, .nil, .nil, path⟩
  let n ← if path.isEmpty then some n else split n
  return propogateSumsUp n

/-- `*leftMaxp`, from a node on. -/
def rightMost (n : PdfNode T W) (left : DiscretePDF T W) :
    DiscretePDF T W → Trail (PdfNode T W) → PdfSpot T W
  | .nil, path => ⟨n, left, .nil, path⟩
  | .node m l r, path => rightMost m l r (⟨.right, n, left⟩ :: path)

/-- `n->left?n->left:n->right`. -/
def childOf (n : PdfSpot T W) : DiscretePDF T W :=
  match n.left with
  | .nil => n.right
  | .node c l r => .node c l r

/-- The end of `remove`: a node with at most one child leaves the tree. -/
def unlink (n : PdfSpot T W) : Option (DiscretePDF T W) :=
  match childOf n with
  | .nil => some (sumUp .nil n.path)
  | .node c l r => do
    let child : PdfSpot T W := ⟨c, l, r, n.path⟩
    let child ← if n.value.isBlack then lengthen child else some child
    return sumUp child.tree child.path

def remove (item : T) (t : DiscretePDF T W) : Option (DiscretePDF T W) :=
  match lookup item t [] with
  | (.nil, _) => none
  | (.node n .nil r, path) => unlink ⟨n, .nil, r, path⟩
  | (.node n (.node m l r') r, path) =>
    let leftMax := (rightMost m l r' []).value
    unlink (rightMost m l r'
      (⟨.left, { n with key := leftMax.key, weight := leftMax.weight }, r⟩ :: path))

def update (item : T) (weight : W) (t : DiscretePDF T W) : Option (DiscretePDF T W) :=
  match lookup item t [] with
  | (.nil, _) => none
  | (.node n l r, path) => some (propogateSumsUp ⟨{ n with weight := weight }, l, r, path⟩)

end operations

section choose

variable [Field W] [LinearOrder W]

/-- The null pointer. -/
def missing : DiscretePDF T W → Bool
  | .nil => true
  | .node _ _ _ => false

/-- The loop of `choose`, from a node on. -/
def chooseFrom : DiscretePDF T W → W → Option T
  | .nil, _ => none
  | .node n left right, w =>
    if !missing left && decide (w < sumWeights left) then chooseFrom left w
    else
      let w := if missing left then w else w - sumWeights left
      if decide (w < n.weight) || missing right then some n.key
      else chooseFrom right (w - n.weight)

def choose (p : W) (t : DiscretePDF T W) : Option T :=
  if p < 0 ∨ 1 ≤ p then none
  else if missing t then none
  else chooseFrom t (sumWeights t * p)

end choose

/-- A call that changes the tree. -/
inductive Call (T W : Type) where
  | insert (item : T) (weight : W)
  | remove (item : T)
  | update (item : T) (weight : W)

/-- `none` is a failed assertion or a missing node that is dereferenced. -/
def Call.run [LinearOrder T] [AddCommMonoid W] (t : DiscretePDF T W) :
    Call T W → Option (DiscretePDF T W)
  | .insert item weight => DiscretePDF.insert item weight t
  | .remove item => DiscretePDF.remove item t
  | .update item weight => DiscretePDF.update item weight t

end DiscretePDF

end Encider
