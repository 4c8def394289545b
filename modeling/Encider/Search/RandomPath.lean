import Encider.Lib.Zipper

/-!
The process tree (`PTree`), which keeps the live states at its leaves, and `RandomPathSearcher`,
which walks from the root to one of them. A node is named by the way to it from the root: nodes are
added and deleted, and never move.
-/

namespace Encider

open Zipper

/-- The `data` of the nodes; null children are missing. -/
abbrev PTree (σ : Type) := BinaryTree (Option σ)

namespace PTree

variable {σ : Type}

def leaf (s : σ) : PTree σ := .node (some s) .nil .nil

/-- Null pointers. -/
def missing : PTree σ → Bool
  | .nil => true
  | .node _ _ _ => false

/-- `n->data = 0` and then `split`, at the node under an address. It fails where the node is missing
or has children. -/
def split (leftData rightData : σ) : PTree σ → List Side → Option (PTree σ)
  | .nil, _ => none
  | .node _ left right, [] =>
    if missing left && missing right then some (.node none (leaf leftData) (leaf rightData))
    else none
  | .node data left right, .left :: n =>
    (split leftData rightData left n).map fun left => .node data left right
  | .node data left right, .right :: n =>
    (split leftData rightData right n).map fun right => .node data left right

/-- The node under an address and the ones above it. -/
def find : PTree σ → List Side → Trail (Option σ) → Option (Spot (Option σ))
  | .nil, _, _ => none
  | .node data left right, [], path => some ⟨data, left, right, path⟩
  | .node data left right, .left :: n, path => find left n (⟨.left, data, right⟩ :: path)
  | .node data left right, .right :: n, path => find right n (⟨.right, data, left⟩ :: path)

/-- The loop of `remove`: a node is deleted, and each parent that has no child left. -/
def deleteUp : Trail (Option σ) → PTree σ
  | [] => .nil
  | p :: path => if missing p.sibling then deleteUp path else rebuild (p.plug .nil) path

def remove (t : PTree σ) (n : List Side) : Option (PTree σ) :=
  match find t n [] with
  | none => none
  | some n => if missing n.left && missing n.right then some (deleteUp n.path) else none

/-- `RandomPathSearcher::selectState`, from a node on: `flips` has `bits` unused bits, and `drawn`
numbers were taken from the generator. -/
def walk (getInt32 : Nat → UInt32) : PTree σ → UInt32 → Nat → Nat → Option σ
  | .nil, _, _, _ => none
  | .node (some data) _ _, _, _, _ => some data
  | .node none left right, flips, bits, drawn =>
    if missing left then walk getInt32 right flips bits drawn
    else if missing right then walk getInt32 left flips bits drawn
    else
      let (flips, bits, drawn) :=
        if bits = 0 then (getInt32 drawn, 32, drawn + 1) else (flips, bits, drawn)
      if flips.toNat.testBit (bits - 1) then walk getInt32 left flips (bits - 1) drawn
      else walk getInt32 right flips (bits - 1) drawn

def selectState (getInt32 : Nat → UInt32) (root : PTree σ) : Option σ := walk getInt32 root 0 0 0

end PTree

/-- The process tree with the states' `ptreeNode`. -/
structure ProcessTree (σ : Type) where
  root : PTree σ
  ptreeNode : σ → List Side

namespace ProcessTree

variable {σ : Type} [DecidableEq σ]

/-- What `Executor` does with the tree: a state is split in two, one of which is the state itself
and the other one new, or a state is deleted. -/
inductive Event (σ : Type) where
  | split (es leftData rightData : σ)
  | delete (es : σ)

def step (t : ProcessTree σ) : Event σ → Option (ProcessTree σ)
  | .split es leftData rightData => do
    let n := t.ptreeNode es
    let root ← t.root.split leftData rightData n
    let ptreeNode := Function.update t.ptreeNode leftData (n ++ [.left])
    return ⟨root, Function.update ptreeNode rightData (n ++ [.right])⟩
  | .delete es => do
    let root ← t.root.remove (t.ptreeNode es)
    return ⟨root, t.ptreeNode⟩

/-- The tree `run` starts with. -/
def start (s : σ) : ProcessTree σ := ⟨PTree.leaf s, fun _ => []⟩

end ProcessTree

namespace PTree

variable {σ : Type} {t : PTree σ}

/-- The states at the leaves, each with the way to it. -/
def places : PTree σ → List (List Side × σ)
  | .nil => []
  | .node (some s) _ _ => [([], s)]
  | .node none l r =>
    (places l).map (fun p => (.left :: p.1, p.2)) ++ (places r).map fun p => (.right :: p.1, p.2)

/-- States are at the leaves, and every other node has a child. -/
def Proper : PTree σ → Prop
  | .nil => True
  | .node (some _) l r => l = .nil ∧ r = .nil
  | .node none l r => Proper l ∧ Proper r ∧ (l ≠ .nil ∨ r ≠ .nil)

@[simp] theorem missing_nil : missing (.nil : PTree σ) = true := rfl

@[simp] theorem missing_node {data : Option σ} {l r : PTree σ} :
    missing (.node data l r) = false := rfl

theorem missing_iff : missing t = true ↔ t = .nil := by
  cases t <;> simp [missing]

theorem mem_places_none {l r : PTree σ} {p : List Side × σ} :
    p ∈ places (.node none l r) ↔ (∃ q ∈ places l, (.left :: q.1, q.2) = p) ∨
      ∃ q ∈ places r, (.right :: q.1, q.2) = p := by
  simp only [places, List.mem_append, List.mem_map]

/-- Where a state is in the left subtree, and where it is in the right one. -/
theorem place_cases {l r : PTree σ} {n : List Side} {s : σ}
    (h : (n, s) ∈ places (.node none l r)) :
    (∃ n', n = .left :: n' ∧ (n', s) ∈ places l) ∨ ∃ n', n = .right :: n' ∧ (n', s) ∈ places r := by
  obtain ⟨⟨n', s'⟩, hq, heq⟩ | ⟨⟨n', s'⟩, hq, heq⟩ := mem_places_none.mp h
  · obtain ⟨rfl, rfl⟩ := Prod.mk.inj heq
    exact .inl ⟨n', rfl, hq⟩
  · obtain ⟨rfl, rfl⟩ := Prod.mk.inj heq
    exact .inr ⟨n', rfl, hq⟩

theorem left_mem {l r : PTree σ} {n : List Side} {s : σ} :
    (.left :: n, s) ∈ places (.node none l r) ↔ (n, s) ∈ places l := by
  simp [places]

theorem right_mem {l r : PTree σ} {n : List Side} {s : σ} :
    (.right :: n, s) ∈ places (.node none l r) ↔ (n, s) ∈ places r := by
  simp [places]

theorem nil_not_mem {l r : PTree σ} {s : σ} : ([], s) ∉ places (.node none l r) := by
  simp [places]

theorem place_unique {n : List Side} {s s' : σ} (h : (n, s) ∈ places t) (h' : (n, s') ∈ places t) :
    s = s' := by
  induction t generalizing n with
  | nil => exact absurd h List.not_mem_nil
  | node data l r ihl ihr =>
    cases data with
    | some x =>
      simp only [places, List.mem_singleton, Prod.mk.injEq] at h h'
      exact h.2.trans h'.2.symm
    | none =>
      cases n with
      | nil => exact absurd h nil_not_mem
      | cons side n =>
        cases side with
        | left => exact ihl (left_mem.mp h) (left_mem.mp h')
        | right => exact ihr (right_mem.mp h) (right_mem.mp h')

theorem split_spec {n : List Side} {s : σ} (h : Proper t) (hn : (n, s) ∈ places t) (a b : σ) :
    ∃ t', split a b t n = some t' ∧ Proper t' ∧ t' ≠ .nil ∧ ∀ m x, (m, x) ∈ places t' ↔
      ((m, x) ∈ places t ∧ m ≠ n) ∨ (m, x) = (n ++ [.left], a) ∨ (m, x) = (n ++ [.right], b) := by
  induction t generalizing n with
  | nil => exact absurd hn List.not_mem_nil
  | node data l r ihl ihr =>
    cases data with
    | some s' =>
      obtain ⟨rfl, rfl⟩ := h
      obtain ⟨rfl, rfl⟩ : n = [] ∧ s = s' := by simpa [places] using hn
      refine ⟨.node none (leaf a) (leaf b), by simp [split, missing], ?_, by simp, fun m x => ?_⟩
      · simp [Proper, leaf]
      · have hleaf : ∀ m x, ((m, x) ∈ places (.node (some s) .nil .nil) ∧ m ≠ []) ↔ False := by
          intro m x
          simp [places]
          exact fun hm _ => hm
        rw [hleaf]
        simp [places, leaf]
    | none =>
      obtain ⟨hl, hr, hne⟩ := h
      obtain ⟨n, rfl, hn'⟩ | ⟨n, rfl, hn'⟩ := place_cases hn
      · obtain ⟨l', hsplit, hproper, hnil, hplaces⟩ := ihl hl hn'
        refine ⟨.node none l' r, by simp [split, hsplit], ⟨hproper, hr, .inl hnil⟩, by simp,
          fun m x => ?_⟩
        cases m with
        | nil => simp [nil_not_mem]
        | cons side m => cases side <;> simp [left_mem, right_mem, hplaces]
      · obtain ⟨r', hsplit, hproper, hnil, hplaces⟩ := ihr hr hn'
        refine ⟨.node none l r', by simp [split, hsplit], ⟨hl, hproper, .inr hnil⟩, by simp,
          fun m x => ?_⟩
        cases m with
        | nil => simp [nil_not_mem]
        | cons side m => cases side <;> simp [left_mem, right_mem, hplaces]

/-- A node that goes with its last child. -/
def keep (l r : PTree σ) : PTree σ := if missing l && missing r then .nil else .node none l r

theorem places_keep (l r : PTree σ) : places (keep l r) = places (.node none l r) := by
  unfold keep
  split_ifs with h
  · rw [Bool.and_eq_true, missing_iff, missing_iff] at h
    simp [h.1, h.2, places]
  · rfl

theorem Proper.keep {l r : PTree σ} (hl : Proper l) (hr : Proper r) : Proper (keep l r) := by
  unfold PTree.keep
  split_ifs with h
  · trivial
  · rw [Bool.and_eq_true, missing_iff, missing_iff, not_and_or] at h
    exact ⟨hl, hr, h⟩

/-- What is left of a subtree when a leaf is deleted. -/
def without : PTree σ → List Side → PTree σ
  | .nil, _ => .nil
  | .node _ _ _, [] => .nil
  | .node _ l r, .left :: n => keep (without l n) r
  | .node _ l r, .right :: n => keep l (without r n)

/-- The loop that goes up deletes the same nodes. -/
theorem find_deleteUp {n : List Side} {s : σ} (h : Proper t) (hn : (n, s) ∈ places t)
    (path : Trail (Option σ)) :
    ∃ spot, find t n path = some spot ∧ missing spot.left = true ∧ missing spot.right = true ∧
      deleteUp spot.path =
        if missing (without t n) then deleteUp path else rebuild (without t n) path := by
  induction t generalizing n path with
  | nil => exact absurd hn List.not_mem_nil
  | node data l r ihl ihr =>
    cases data with
    | some s' =>
      obtain ⟨rfl, rfl⟩ := h
      obtain ⟨rfl, rfl⟩ : n = [] ∧ s = s' := by simpa [places] using hn
      exact ⟨_, rfl, rfl, rfl, rfl⟩
    | none =>
      obtain ⟨hl, hr, hne⟩ := h
      obtain ⟨n, rfl, hn'⟩ | ⟨n, rfl, hn'⟩ := place_cases hn
      · obtain ⟨spot, hfind, hleft, hright, hdelete⟩ := ihl hl hn' (⟨.left, none, r⟩ :: path)
        refine ⟨spot, hfind, hleft, hright, hdelete.trans ?_⟩
        cases hw : without l n <;> cases r <;>
          simp [without, keep, hw, deleteUp, rebuild, Frame.plug]
      · obtain ⟨spot, hfind, hleft, hright, hdelete⟩ := ihr hr hn' (⟨.right, none, l⟩ :: path)
        refine ⟨spot, hfind, hleft, hright, hdelete.trans ?_⟩
        cases hw : without r n <;> cases l <;>
          simp [without, keep, hw, deleteUp, rebuild, Frame.plug]

theorem without_spec {n : List Side} {s : σ} (h : Proper t) (hn : (n, s) ∈ places t) :
    Proper (without t n) ∧ ∀ m x, (m, x) ∈ places (without t n) ↔ (m, x) ∈ places t ∧ m ≠ n := by
  induction t generalizing n with
  | nil => exact absurd hn List.not_mem_nil
  | node data l r ihl ihr =>
    cases data with
    | some s' =>
      obtain ⟨rfl, rfl⟩ := h
      obtain ⟨rfl, rfl⟩ : n = [] ∧ s = s' := by simpa [places] using hn
      refine ⟨trivial, fun m x => ?_⟩
      simp [without, places]
      exact fun hm _ => hm
    | none =>
      obtain ⟨hl, hr, hne⟩ := h
      obtain ⟨n, rfl, hn'⟩ | ⟨n, rfl, hn'⟩ := place_cases hn
      · obtain ⟨hproper, hplaces⟩ := ihl hl hn'
        refine ⟨hproper.keep hr, fun m x => ?_⟩
        rw [without, places_keep]
        cases m with
        | nil => simp [nil_not_mem]
        | cons side m => cases side <;> simp [left_mem, right_mem, hplaces]
      · obtain ⟨hproper, hplaces⟩ := ihr hr hn'
        refine ⟨hl.keep hproper, fun m x => ?_⟩
        rw [without, places_keep]
        cases m with
        | nil => simp [nil_not_mem]
        | cons side m => cases side <;> simp [left_mem, right_mem, hplaces]

theorem remove_spec {n : List Side} {s : σ} (h : Proper t) (hn : (n, s) ∈ places t) :
    ∃ t', remove t n = some t' ∧ Proper t' ∧
      ∀ m x, (m, x) ∈ places t' ↔ (m, x) ∈ places t ∧ m ≠ n := by
  obtain ⟨spot, hfind, hleft, hright, hdelete⟩ := find_deleteUp h hn []
  obtain ⟨hproper, hplaces⟩ := without_spec h hn
  refine ⟨without t n, ?_, hproper, hplaces⟩
  simp only [remove, hfind, hleft, hright, Bool.and_self, if_true, hdelete, Option.some.injEq]
  split_ifs with hm
  · exact (missing_iff.mp hm).symm
  · rfl

end PTree

namespace ProcessTree

variable {σ : Type} [DecidableEq σ]

/-- The live states are at the leaves, each where its `ptreeNode` says. -/
structure Holds (live : Set σ) (t : ProcessTree σ) : Prop where
  proper : t.root.Proper
  places : ∀ n s, (n, s) ∈ t.root.places ↔ s ∈ live ∧ t.ptreeNode s = n

/-- The live states after an event. -/
def Event.live (live : Set σ) : Event σ → Set σ
  | .split _ leftData rightData => insert leftData (insert rightData live)
  | .delete es => live \ {es}

/-- A live state is split into itself and a new state, or a live state is deleted. -/
def Event.Legal (live : Set σ) : Event σ → Prop
  | .split es leftData rightData => es ∈ live ∧
      (leftData = es ∧ rightData ∉ live ∨ rightData = es ∧ leftData ∉ live)
  | .delete es => es ∈ live

variable {live : Set σ} {t : ProcessTree σ}

omit [DecidableEq σ] in
/-- Two live states are at two places. -/
theorem Holds.apart (h : t.Holds live) {s es : σ} (hs : s ∈ live) (hes : es ∈ live) :
    t.ptreeNode s = t.ptreeNode es ↔ s = es := by
  refine ⟨fun heq => ?_, fun heq => congrArg t.ptreeNode heq⟩
  exact PTree.place_unique ((h.places _ s).mpr ⟨hs, heq⟩) ((h.places _ es).mpr ⟨hes, rfl⟩)

theorem Holds.step (h : t.Holds live) {e : Event σ} (he : e.Legal live) :
    ∃ t', t.step e = some t' ∧ t'.Holds (e.live live) := by
  cases e with
  | split es a b =>
    obtain ⟨hes, hab⟩ := he
    obtain ⟨root, hsplit, hproper, -, hplaces⟩ :=
      PTree.split_spec h.proper ((h.places _ es).mpr ⟨hes, rfl⟩) a b
    refine ⟨_, by simp only [ProcessTree.step, hsplit]; rfl, hproper, fun n s => ?_⟩
    rw [hplaces, h.places]
    have hne : a ≠ b := by
      rintro rfl
      obtain ⟨rfl, hnew⟩ | ⟨rfl, hnew⟩ := hab <;> exact hnew hes
    -- Neither half stands at the place of the state that was split.
    have hgone : s = a ∨ s = b → ¬ ((s ∈ live ∧ t.ptreeNode s = n) ∧ n ≠ t.ptreeNode es) := by
      rintro hs ⟨⟨hlive, rfl⟩, hn⟩
      obtain ⟨rfl, hnew⟩ | ⟨rfl, hnew⟩ := hab <;> obtain rfl | rfl := hs
      · exact hn rfl
      · exact hnew hlive
      · exact hnew hlive
      · exact hn rfl
    simp only [Event.live, Set.mem_insert_iff, Prod.mk.injEq]
    by_cases hb : s = b
    · subst hb
      rw [eq_false (hgone (.inr rfl))]
      simp [hne.symm, eq_comm]
    · by_cases ha : s = a
      · subst ha
        rw [eq_false (hgone (.inl rfl))]
        simp [hne, eq_comm]
      · have hes' : s ≠ es := by
          rintro rfl
          obtain ⟨rfl, -⟩ | ⟨rfl, -⟩ := hab
          · exact ha rfl
          · exact hb rfl
        simp only [ha, hb, and_false, or_false, false_or, ne_eq, not_false_eq_true,
          Function.update_of_ne]
        refine ⟨fun h => h.1, fun hs => ⟨hs, ?_⟩⟩
        rw [← hs.2, h.apart hs.1 hes]
        exact hes'
  | delete es =>
    obtain ⟨root, hremove, hproper, hplaces⟩ :=
      PTree.remove_spec h.proper ((h.places _ es).mpr ⟨he, rfl⟩)
    refine ⟨_, by simp only [ProcessTree.step, hremove]; rfl, hproper, fun n s => ?_⟩
    rw [hplaces, h.places]
    have hapart : s ∈ live → (t.ptreeNode s = t.ptreeNode es ↔ s = es) := fun hs => h.apart hs he
    simp only [Event.live, Set.mem_sdiff, Set.mem_singleton_iff]
    constructor
    · rintro ⟨⟨hs, rfl⟩, hn⟩
      exact ⟨⟨hs, mt (hapart hs).mpr hn⟩, rfl⟩
    · rintro ⟨⟨hs, hn⟩, rfl⟩
      exact ⟨⟨hs, rfl⟩, mt (hapart hs).mp hn⟩

omit [DecidableEq σ] in
theorem start_holds (s : σ) : (start s).Holds {s} :=
  ⟨⟨rfl, rfl⟩, fun n x => by simp [start, PTree.leaf, PTree.places, and_comm, eq_comm]⟩

end ProcessTree

namespace PTree

variable {σ : Type} (getInt32 : Nat → UInt32)

/-- The random bits in the order in which they are used, the highest bit of each number first. -/
def coin (i : Nat) : Bool := (getInt32 (i / 32)).toNat.testBit (31 - i % 32)

/-- Where a walk to a place has a choice, the side it has to take. -/
def choices : PTree σ → List Side → List Bool
  | .node none l r, .left :: n =>
    if missing r then choices l n else true :: choices l n
  | .node none l r, .right :: n =>
    if missing l then choices r n else false :: choices r n
  | _, _ => []

/-- The bits from one on take the walk to this place. -/
def Follows (i : Nat) (t : PTree σ) (n : List Side) : Prop :=
  choices t n = (List.range' i (choices t n).length).map (coin getInt32)

/-- How far the random numbers are used. -/
structure Used (i : Nat) (flips : UInt32) (bits drawn : Nat) : Prop where
  drawn_eq : 32 * drawn = i + bits
  bits_lt : bits < 32
  flips_eq : bits ≠ 0 → flips = getInt32 (drawn - 1)

variable {getInt32} {t l r : PTree σ} {i : Nat} {flips : UInt32} {bits drawn : Nat}

theorem cons_follows {c : Bool} {cs : List Bool} :
    c :: cs = (List.range' i (c :: cs).length).map (coin getInt32) ↔
      c = coin getInt32 i ∧ cs = (List.range' (i + 1) cs.length).map (coin getInt32) := by
  rw [List.length_cons, List.range'_succ, List.map_cons, List.cons.injEq]

/-- The turn of the walk at a node with two children. -/
theorem walk_fork (h : Used getInt32 i flips bits drawn) (hl : missing l = false)
    (hr : missing r = false) :
    ∃ flips' bits' drawn', Used getInt32 (i + 1) flips' bits' drawn' ∧
      walk getInt32 (.node none l r) flips bits drawn =
        if coin getInt32 i then walk getInt32 l flips' bits' drawn'
        else walk getInt32 r flips' bits' drawn' := by
  obtain ⟨hdrawn, hbits, hflips⟩ := h
  by_cases hb : bits = 0
  · refine ⟨getInt32 drawn, 31, drawn + 1, ⟨by omega, by omega, fun _ => rfl⟩, ?_⟩
    have hdiv : i / 32 = drawn := by omega
    have hmod : 31 - i % 32 = 31 := by omega
    simp [walk, hl, hr, hb, coin, hdiv, hmod]
  · refine ⟨flips, bits - 1, drawn, ⟨by omega, by omega, fun _ => hflips hb⟩, ?_⟩
    have hdiv : i / 32 = drawn - 1 := by omega
    have hmod : 31 - i % 32 = bits - 1 := by omega
    simp [walk, hl, hr, hb, coin, hdiv, hmod, ← hflips hb]

theorem walk_left (h : missing r = true) (hl : missing l = false) :
    walk getInt32 (.node none l r) flips bits drawn = walk getInt32 l flips bits drawn := by
  simp [walk, hl, h]

theorem walk_right (h : missing l = true) :
    walk getInt32 (.node none l r) flips bits drawn = walk getInt32 r flips bits drawn := by
  simp [walk, h]

/-- The walk ends at a state, at the place to which the bits lead. -/
theorem walk_spec (h : Proper t) (hne : t ≠ .nil) (hused : Used getInt32 i flips bits drawn) :
    ∃ n s, walk getInt32 t flips bits drawn = some s ∧ (n, s) ∈ places t ∧
      Follows getInt32 i t n := by
  induction t generalizing i flips bits drawn with
  | nil => exact absurd rfl hne
  | node data l r ihl ihr =>
    cases data with
    | some s => exact ⟨[], s, rfl, by simp [places], rfl⟩
    | none =>
      obtain ⟨hl, hr, hchild⟩ := h
      by_cases hml : missing l = true
      · have hr' : r ≠ .nil := hchild.resolve_left fun hl' => hl' (missing_iff.mp hml)
        obtain ⟨n, s, hwalk, hplace, hfollows⟩ := ihr hr hr' hused
        exact ⟨.right :: n, s, (walk_right hml).trans hwalk, right_mem.mpr hplace,
          by simpa [Follows, choices, hml] using hfollows⟩
      · rw [Bool.not_eq_true] at hml
        have hl' : l ≠ .nil := fun h => by simp [h] at hml
        by_cases hmr : missing r = true
        · obtain ⟨n, s, hwalk, hplace, hfollows⟩ := ihl hl hl' hused
          exact ⟨.left :: n, s, (walk_left hmr hml).trans hwalk, left_mem.mpr hplace,
            by simpa [Follows, choices, hmr] using hfollows⟩
        · rw [Bool.not_eq_true] at hmr
          have hr' : r ≠ .nil := fun h => by simp [h] at hmr
          obtain ⟨flips', bits', drawn', hused', hturn⟩ := walk_fork hused hml hmr
          cases hcoin : coin getInt32 i with
          | true =>
            obtain ⟨n, s, hwalk, hplace, hfollows⟩ := ihl hl hl' hused'
            refine ⟨.left :: n, s, by simp [hturn, hcoin, hwalk], left_mem.mpr hplace, ?_⟩
            simp only [Follows, choices, hmr, Bool.false_eq_true, if_false]
            exact cons_follows.mpr ⟨hcoin.symm, hfollows⟩
          | false =>
            obtain ⟨n, s, hwalk, hplace, hfollows⟩ := ihr hr hr' hused'
            refine ⟨.right :: n, s, by simp [hturn, hcoin, hwalk], right_mem.mpr hplace, ?_⟩
            simp only [Follows, choices, hml, Bool.false_eq_true, if_false]
            exact cons_follows.mpr ⟨hcoin.symm, hfollows⟩

/-- Bits that lead to a place take the walk to the state there. -/
theorem walk_of_follows {n : List Side} {s : σ} (h : Proper t) (hplace : (n, s) ∈ places t)
    (hused : Used getInt32 i flips bits drawn) (hfollows : Follows getInt32 i t n) :
    walk getInt32 t flips bits drawn = some s := by
  induction t generalizing n i flips bits drawn with
  | nil => exact absurd hplace List.not_mem_nil
  | node data l r ihl ihr =>
    cases data with
    | some x =>
      obtain ⟨-, rfl⟩ : n = [] ∧ s = x := by simpa [places] using hplace
      rfl
    | none =>
      obtain ⟨hl, hr, -⟩ := h
      obtain ⟨n, rfl, hn⟩ | ⟨n, rfl, hn⟩ := place_cases hplace
      · have hml : missing l = false := by
          cases l with
          | nil => exact absurd hn List.not_mem_nil
          | node _ _ _ => rfl
        by_cases hmr : missing r = true
        · rw [walk_left hmr hml]
          exact ihl hl hn hused (by simpa [Follows, choices, hmr] using hfollows)
        · rw [Bool.not_eq_true] at hmr
          obtain ⟨flips', bits', drawn', hused', hturn⟩ := walk_fork hused hml hmr
          simp only [Follows, choices, hmr, Bool.false_eq_true, if_false] at hfollows
          obtain ⟨hcoin, hfollows⟩ := cons_follows.mp hfollows
          rw [hturn, ← hcoin, if_pos rfl]
          exact ihl hl hn hused' hfollows
      · by_cases hml : missing l = true
        · rw [walk_right hml]
          exact ihr hr hn hused (by simpa [Follows, choices, hml] using hfollows)
        · rw [Bool.not_eq_true] at hml
          have hmr : missing r = false := by
            cases r with
            | nil => exact absurd hn List.not_mem_nil
            | node _ _ _ => rfl
          obtain ⟨flips', bits', drawn', hused', hturn⟩ := walk_fork hused hml hmr
          simp only [Follows, choices, hml, Bool.false_eq_true, if_false] at hfollows
          obtain ⟨hcoin, hfollows⟩ := cons_follows.mp hfollows
          rw [hturn, ← hcoin, if_neg Bool.false_ne_true]
          exact ihr hr hn hused' hfollows

end PTree

namespace ProcessTree

variable {σ : Type} {live : Set σ} {t : ProcessTree σ}

theorem Holds.select (h : t.Holds live) (getInt32 : Nat → UInt32) (hlive : live.Nonempty) :
    ∃ s ∈ live, PTree.selectState getInt32 t.root = some s := by
  obtain ⟨s₀, hs₀⟩ := hlive
  have hne : t.root ≠ .nil := by
    intro hnil
    have hplace := (h.places _ s₀).mpr ⟨hs₀, rfl⟩
    rw [hnil] at hplace
    exact absurd hplace List.not_mem_nil
  have hstart : PTree.Used getInt32 0 0 0 0 := ⟨rfl, by omega, fun h => absurd rfl h⟩
  obtain ⟨n, s, hwalk, hplace, -⟩ := PTree.walk_spec h.proper hne hstart
  exact ⟨s, ((h.places n s).mp hplace).1, hwalk⟩

theorem Holds.select_iff (h : t.Holds live) (getInt32 : Nat → UInt32) {s : σ} (hs : s ∈ live) :
    PTree.selectState getInt32 t.root = some s ↔
      PTree.Follows getInt32 0 t.root (t.ptreeNode s) := by
  have hstart : PTree.Used getInt32 0 0 0 0 := ⟨rfl, by omega, fun h => absurd rfl h⟩
  have hplace := (h.places _ s).mpr ⟨hs, rfl⟩
  refine ⟨fun hselect => ?_, PTree.walk_of_follows h.proper hplace hstart⟩
  have hne : t.root ≠ .nil := by
    intro hnil
    rw [hnil] at hplace
    exact absurd hplace List.not_mem_nil
  obtain ⟨n, s', hwalk, hplace', hfollows⟩ := PTree.walk_spec h.proper hne hstart
  obtain rfl : s' = s := Option.some.inj (hwalk.symm.trans hselect)
  rwa [((h.places n s').mp hplace').2]

variable [DecidableEq σ]

/-- Every event of a run is legal for the states that are live then. -/
def Legal : Set σ → List (Event σ) → Prop
  | _, [] => True
  | live, e :: events => e.Legal live ∧ Legal (e.live live) events

theorem Holds.run (h : t.Holds live) {events : List (Event σ)} (hlegal : Legal live events) :
    ∃ t', events.foldlM ProcessTree.step t = some t' ∧ t'.Holds (events.foldl Event.live live) := by
  induction events generalizing t live with
  | nil => exact ⟨t, rfl, h⟩
  | cons e events ih =>
    obtain ⟨t₁, hstep, h₁⟩ := h.step hlegal.1
    obtain ⟨t', hrun, h'⟩ := ih h₁ hlegal.2
    exact ⟨t', by simp [List.foldlM_cons, hstep, hrun], h'⟩

/-- Through any sequence of splits and deletions of live states no assertion fails and no missing
node is dereferenced. Afterwards the live states are at the leaves of the process tree, each where
its `ptreeNode` says; a random path ends at one of them, whatever the random numbers are, and at a
given one exactly for the bits that make the choices on the way to it. -/
theorem randomPath_selects {s : σ} {events : List (Event σ)} (hlegal : Legal {s} events) :
    ∃ t, events.foldlM step (start s) = some t ∧
      (∀ n x, (n, x) ∈ t.root.places ↔
        x ∈ events.foldl Event.live {s} ∧ t.ptreeNode x = n) ∧
      ∀ getInt32, ((events.foldl Event.live {s}).Nonempty →
          ∃ x ∈ events.foldl Event.live {s}, PTree.selectState getInt32 t.root = some x) ∧
        ∀ x ∈ events.foldl Event.live {s}, (PTree.selectState getInt32 t.root = some x ↔
          PTree.Follows getInt32 0 t.root (t.ptreeNode x)) := by
  obtain ⟨t, hrun, h⟩ := (start_holds s).run hlegal
  exact ⟨t, hrun, h.places, fun getInt32 =>
    ⟨h.select getInt32, fun x hx => h.select_iff getInt32 hx⟩⟩

/-- A state is split twice, and one of the three ends. -/
def threeStates : List (Event ℕ) := [.split 1 2 1, .split 2 2 3, .delete 2]

theorem threeStates_select : ∃ t, threeStates.foldlM step (start 1) = some t ∧
    (∀ n x, (n, x) ∈ t.root.places ↔
      x ∈ threeStates.foldl Event.live {1} ∧ t.ptreeNode x = n) ∧
    ∀ getInt32, ((threeStates.foldl Event.live {1}).Nonempty →
        ∃ x ∈ threeStates.foldl Event.live {1}, PTree.selectState getInt32 t.root = some x) ∧
      ∀ x ∈ threeStates.foldl Event.live {1}, (PTree.selectState getInt32 t.root = some x ↔
        PTree.Follows getInt32 0 t.root (t.ptreeNode x)) :=
  randomPath_selects (by simp [threeStates, Legal, Event.Legal, Event.live])

end ProcessTree

end Encider
