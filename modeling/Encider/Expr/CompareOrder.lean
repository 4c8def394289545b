import Encider.Expr.Compare

/-!
Objects of one memory, and the comparison of any two of them after any comparisons before.
-/

namespace Encider

/-! ### Equal trees are equal structures -/

theorem Obj.kids_length {ι : Type} {x y : Obj ι} (h : x.kind = y.kind) :
    x.kids.length = y.kids.length := by
  have hnumber : ∀ z : Obj ι, z.kids.length =
      if z.kind = 0 then 0 else if z.kind = 4 then 3 else if z.kind = 5 ∨ 10 ≤ z.kind then 2
        else 1 := by
    intro z
    cases z with
    | cast i k e w => cases k <;> rfl
    | binary i k l r => cases k <;> rfl
    | _ => rfl
  rw [hnumber, hnumber, h]

theorem Obj.weight_of_mem_kids {ι : Type} {x k : Obj ι} (h : k ∈ x.kids) :
    k.weight < x.weight := by
  have hle : k.weight ≤ (x.kids.map Obj.weight).sum :=
    List.single_le_sum (fun _ _ => Nat.zero_le _) _ (List.mem_map_of_mem h)
  exact lt_of_le_of_lt hle x.weight_kids

theorem Obj.weight_updates {ι : Type} (x : Obj ι) : x.updates.weight < x.weight := by
  cases x <;> simp only [updates, weight, Updates.weight] <;> omega

theorem Updates.erase_eq_of_trees {ι : Type} {hv : HashValue} {n : ℕ}
    (ih : ∀ x y : Obj ι, x.weight < n → x.tree hv = y.tree hv → x.erase = y.erase)
    {us us' : Updates ι} (hn : us.weight < n) (h : us.trees hv = us'.trees hv) :
    us.erase = us'.erase := by
  cases us with
  | nil =>
    cases us' with
    | nil => rfl
    | cons => simp [trees] at h
  | cons j i v next =>
    cases us' with
    | nil => simp [trees] at h
    | cons j' i' v' next' =>
      simp only [trees, List.cons.injEq] at h
      simp only [weight] at hn
      have hnext : next.erase = next'.erase :=
        erase_eq_of_trees ih (show next.weight < n by omega) h.2.2
      rw [erase, erase, ih i i' (by omega) h.1, ih v v' (by omega) h.2.1, hnext]

theorem Obj.map_erase_of_trees {ι : Type} {hv : HashValue} {xs ys : List (Obj ι)}
    (ih : ∀ x ∈ xs, ∀ y : Obj ι, x.tree hv = y.tree hv → x.erase = y.erase)
    (h : xs.map (tree hv) = ys.map (tree hv)) : xs.map erase = ys.map erase := by
  induction xs generalizing ys with
  | nil =>
    obtain rfl : ys = [] := by simpa using h.symm
    rfl
  | cons x xs ih' =>
    cases ys with
    | nil => simp at h
    | cons y ys =>
      simp only [List.map_cons, List.cons.injEq] at h ⊢
      exact ⟨ih x List.mem_cons_self y h.1,
        ih' (fun z hz => ih z (List.mem_cons_of_mem _ hz)) h.2⟩

/-- By induction on the number of objects below the first. -/
theorem Obj.erase_eq_of_tree {ι : Type} {hv : HashValue} (x y : Obj ι)
    (h : x.tree hv = y.tree hv) : x.erase = y.erase := by
  induction hn : x.weight using Nat.strongRecOn generalizing x y with
  | ind n ih =>
    rw [tree_eq, tree_eq, Rose.node.injEq] at h
    obtain ⟨hlabel, hchildren⟩ := h
    have hcompare : Ord.compare (x.label hv) (y.label hv) = Ordering.eq :=
      compare_eq_iff_eq.mpr hlabel
    rw [compare_label, Ordering.then_eq_eq, Ordering.then_eq_eq, compareAttributes_eq_iff,
      compare_eq_iff_eq] at hcompare
    obtain ⟨hkind, _, hattr⟩ := hcompare
    have hlength : (x.kids.map (tree hv)).length = (y.kids.map (tree hv)).length := by
      simpa using kids_length hkind
    obtain ⟨hupdates, hkids⟩ := List.append_inj' hchildren hlength
    apply erase_eq hkind hattr
    · refine Updates.erase_eq_of_trees (n := n) ?_ (hn ▸ x.weight_updates) hupdates
      intro k k' hk hk'
      exact ih k.weight hk k k' hk' rfl
    · apply map_erase_of_trees _ hkids
      intro k hk k' hk'
      exact ih k.weight (hn ▸ weight_of_mem_kids hk) k k' hk' rfl

theorem Obj.tree_eq_iff {hv : HashValue} (x y : Obj ℕ) :
    x.tree hv = y.tree hv ↔ x.erase = y.erase := by
  constructor
  · exact erase_eq_of_tree x y
  · intro h
    rw [← x.tree_erase hv, h, y.tree_erase hv]

/-! ### Objects of one memory -/

/-- A set of objects with all that is below them: one object at an address, and one node. -/
structure Heap where
  exprs : Set (Obj ℕ)
  nodes : Set (Updates ℕ)
  kid_mem : ∀ {x k}, x ∈ exprs → k ∈ x.kids → k ∈ exprs
  updates_mem : ∀ {x}, x ∈ exprs → x.updates ∈ nodes
  index_mem : ∀ {j i v next}, Updates.cons j i v next ∈ nodes → i ∈ exprs
  value_mem : ∀ {j i v next}, Updates.cons j i v next ∈ nodes → v ∈ exprs
  next_mem : ∀ {j i v next}, Updates.cons j i v next ∈ nodes → next ∈ nodes
  expr_unique : ∀ {x y}, x ∈ exprs → y ∈ exprs → x.id = y.id → x = y
  node_unique : ∀ {j i v next i' v' next'}, Updates.cons j i v next ∈ nodes →
    Updates.cons j i' v' next' ∈ nodes → Updates.cons j i v next = Updates.cons j i' v' next'

/-- The length of an update list fits the counter in its nodes. -/
def Heap.Fits (H : Heap) : Prop := ∀ us ∈ H.nodes, us.length < 2 ^ 32

/-- The pairs in the set are objects with one structure. -/
def Heap.Sound (H : Heap) (hv : HashValue) (equivs : ExprEquivSet) : Prop :=
  ∀ x ∈ H.exprs, ∀ y ∈ H.exprs, pairOf x.id y.id ∈ equivs → x.tree hv = y.tree hv

section Spec

variable {H : Heap} {hv : HashValue}

/-- A call gives this result and leaves the set sound. -/
def Heap.Gives (H : Heap) (hv : HashValue) (r : Option (Ordering × ExprEquivSet))
    (o : Ordering) : Prop :=
  ∃ equivs, r = some (o, equivs) ∧ H.Sound hv equivs

theorem gives_some {equivs : ExprEquivSet} (h : H.Sound hv equivs) (o : Ordering) :
    H.Gives hv (some (o, equivs)) o := ⟨equivs, rfl, h⟩

theorem gives_cleared {r : Option (Ordering × ExprEquivSet)} {o : Ordering}
    (h : H.Gives hv r o) : H.Gives hv (cleared r) o := by
  obtain ⟨equivs, rfl, _⟩ := h
  refine ⟨[], rfl, ?_⟩
  intro x _ y _ hmem
  cases hmem

/-- A step that decides nothing hands over to the next. -/
theorem gives_unlessDecided {r : Option (Ordering × ExprEquivSet)} {o o' : Ordering}
    {next : ExprEquivSet → Option (Ordering × ExprEquivSet)} (h : H.Gives hv r o)
    (hnext : o = .eq → ∀ equivs, H.Sound hv equivs → H.Gives hv (next equivs) o') :
    H.Gives hv (unlessDecided r next) (o.then o') := by
  obtain ⟨equivs, rfl, hsound⟩ := h
  cases o with
  | eq => exact hnext rfl equivs hsound
  | lt => exact gives_some hsound _
  | gt => exact gives_some hsound _

/-- What is known of comparisons of smaller objects. -/
def Smaller (H : Heap) (hv : HashValue) (n : ℕ) : Prop :=
  ∀ x ∈ H.exprs, ∀ y ∈ H.exprs, x.weight < n → ∀ equivs, H.Sound hv equivs →
    H.Gives hv (x.compareIn hv y equivs) (Rose.cmp (x.tree hv) (y.tree hv))

theorem compareKids_gives {n : ℕ} (ih : Smaller H hv n) {xs ys : List (Obj ℕ)}
    (hlength : xs.length = ys.length) (hxs : ∀ x ∈ xs, x ∈ H.exprs ∧ x.weight < n)
    (hys : ∀ y ∈ ys, y ∈ H.exprs) {equivs : ExprEquivSet} (hsound : H.Sound hv equivs) :
    H.Gives hv (Obj.compareKids hv xs ys equivs)
      (Rose.cmpAll (xs.map (Obj.tree hv)) (ys.map (Obj.tree hv))) := by
  induction xs generalizing ys equivs with
  | nil =>
    cases ys with
    | nil =>
      unfold Obj.compareKids
      exact gives_some hsound _
    | cons y ys => simp at hlength
  | cons x xs ih' =>
    cases ys with
    | nil => simp at hlength
    | cons y ys =>
      unfold Obj.compareKids
      obtain ⟨hx, hsmall⟩ := hxs x List.mem_cons_self
      apply gives_unlessDecided (ih x hx y (hys y List.mem_cons_self) hsmall equivs hsound)
      intro _ equivs' hsound'
      exact ih' (by simpa using hlength) (fun z hz => hxs z (List.mem_cons_of_mem _ hz))
        (fun z hz => hys z (List.mem_cons_of_mem _ hz)) hsound'

/-- The nodes of two lists of one length, by induction on the first. -/
theorem compareNodes_gives {n : ℕ} (ih : Smaller H hv n) {us us' : Updates ℕ}
    (hlength : us.length = us'.length) (hn : us.weight < n) (hus : us ∈ H.nodes)
    (hus' : us' ∈ H.nodes) {equivs : ExprEquivSet} (hsound : H.Sound hv equivs) :
    H.Gives hv (us.compareNodes hv us' equivs) (Rose.cmpAll (us.trees hv) (us'.trees hv)) := by
  cases us with
  | nil =>
    cases us' with
    | nil =>
      unfold Updates.compareNodes
      exact gives_some hsound _
    | cons => simp [Updates.length] at hlength
  | cons j i v next =>
    cases us' with
    | nil => simp [Updates.length] at hlength
    | cons j' i' v' next' =>
      unfold Updates.compareNodes
      by_cases hshared : j = j'
      · subst hshared
        rw [if_pos rfl, H.node_unique hus hus', Rose.cmpAll_self]
        exact gives_some hsound _
      · rw [if_neg hshared]
        simp only [Updates.weight] at hn
        have hindex := fun equivs hsound => gives_cleared
          (ih i (H.index_mem hus) i' (H.index_mem hus') (by omega) equivs hsound)
        have hvalue := fun equivs hsound => gives_cleared
          (ih v (H.value_mem hus) v' (H.value_mem hus') (by omega) equivs hsound)
        apply gives_unlessDecided (hindex equivs hsound)
        intro _ equivs₁ hsound₁
        apply gives_unlessDecided (hvalue equivs₁ hsound₁)
        intro _ equivs₂ hsound₂
        exact compareNodes_gives ih (by simpa [Updates.length] using hlength) (by omega)
          (H.next_mem hus) (H.next_mem hus') hsound₂

/-- The contents of two objects of one kind. -/
theorem compareContents_gives {n : ℕ} (ih : Smaller H hv n) (hfits : H.Fits) {x y : Obj ℕ}
    (hkind : x.kind = y.kind) (hn : x.weight = n) (hx : x ∈ H.exprs) (hy : y ∈ H.exprs)
    {equivs : ExprEquivSet} (hsound : H.Sound hv equivs) :
    H.Gives hv (Obj.compareContents hv x y equivs)
      ((compareAttributes x.attributes y.attributes).then
        (Rose.cmpAll (x.updates.trees hv) (y.updates.trees hv))) := by
  have hname : Ord.compare "" "" = Ordering.eq := compare_eq_iff_eq.mpr rfl
  have hzero : Ord.compare 0 0 = Ordering.eq := rfl
  unfold Obj.compareContents
  cases Obj.sameClass hkind with
  | read j root us i j' root' us' i' =>
    have hus : us ∈ H.nodes := H.updates_mem hx
    have hus' : us' ∈ H.nodes := H.updates_mem hy
    have hroots : root.compareRoots root' us us' =
        compareAttributes (Obj.read j root us i).attributes
          (Obj.read j' root' us' i').attributes := rfl
    simp only [hroots]
    apply gives_unlessDecided (gives_some hsound _)
    intro hattr equivs' hsound'
    have hsize : us.getSize = us'.getSize :=
      (Prod.mk.inj (Prod.mk.inj ((compareAttributes_eq_iff _ _).mp hattr)).2).2
    have hlength : us.length = us'.length := by
      rw [Updates.getSize_eq, Updates.getSize_eq, Nat.mod_eq_of_lt (hfits us hus),
        Nat.mod_eq_of_lt (hfits us' hus')] at hsize
      exact hsize
    simp only [Obj.weight] at hn
    exact compareNodes_gives ih hlength (by omega) hus hus' hsound'
  | _ =>
    simp only [Obj.attributes, Obj.updates, Updates.trees, Rose.cmpAll, compareAttributes, hname,
      hzero, Ordering.then_eq, Ordering.eq_then]
    exact gives_some hsound _

/-- The order of two objects of one kind and hash, step by step. -/
theorem cmp_same_hash (hfits : H.Fits) {x y : Obj ℕ} (hx : x ∈ H.exprs) (hy : y ∈ H.exprs)
    (hkind : x.kind = y.kind) (hhash : x.hash hv = y.hash hv) :
    Rose.cmp (x.tree hv) (y.tree hv) =
      ((compareAttributes x.attributes y.attributes).then
        (Rose.cmpAll (x.updates.trees hv) (y.updates.trees hv))).then
          (Rose.cmpAll (x.kids.map (Obj.tree hv)) (y.kids.map (Obj.tree hv))) := by
  rw [Obj.tree_eq, Obj.tree_eq, Rose.cmp, compare_label, hkind, hhash,
    compare_eq_iff_eq.mpr rfl, Ordering.eq_then, compare_eq_iff_eq.mpr rfl, Ordering.eq_then]
  cases hattr : compareAttributes x.attributes y.attributes with
  | eq =>
    rw [Ordering.eq_then, Ordering.eq_then]
    apply Rose.cmpAll_append
    rw [Updates.length_trees, Updates.length_trees]
    have hlength : x.updates.length = y.updates.length := by
      have hsame := (compareAttributes_eq_iff _ _).mp hattr
      cases Obj.sameClass hkind with
      | read j root us i j' root' us' i' =>
        have hsize : us.getSize = us'.getSize := (Prod.mk.inj (Prod.mk.inj hsame).2).2
        rw [Updates.getSize_eq, Updates.getSize_eq, Nat.mod_eq_of_lt (hfits us (H.updates_mem hx)),
          Nat.mod_eq_of_lt (hfits us' (H.updates_mem hy))] at hsize
        exact hsize
      | _ => rfl
    rw [hlength]
  | lt => rfl
  | gt => rfl

/-- An address pair names its two objects. -/
theorem pairOf_eq {a b c d : ℕ} (h : pairOf a b = pairOf c d) :
    a = c ∧ b = d ∨ a = d ∧ b = c := by
  unfold pairOf at h
  split_ifs at h <;> simp_all

theorem Heap.Sound.store {equivs : ExprEquivSet} (h : H.Sound hv equivs) {x y : Obj ℕ}
    (hx : x ∈ H.exprs) (hy : y ∈ H.exprs) (htree : x.tree hv = y.tree hv) :
    H.Sound hv (pairOf x.id y.id :: equivs) := by
  intro x' hx' y' hy' hmem
  obtain hpair | hmem := List.mem_cons.mp hmem
  · obtain ⟨hxx, hyy⟩ | ⟨hxy, hyx⟩ := pairOf_eq hpair
    · rw [H.expr_unique hx' hx hxx, H.expr_unique hy' hy hyy, htree]
    · rw [H.expr_unique hx' hy hxy, H.expr_unique hy' hx hyx, htree]
  · exact h x' hx' y' hy' hmem

/-- The comparison of any two objects, by induction on the size of the first. -/
theorem compareIn_gives (hfits : H.Fits) (n : ℕ) : Smaller H hv n := by
  induction n with
  | zero =>
    intro x _ y _ hn
    exact absurd hn (Nat.not_lt_zero _)
  | succ n ih =>
    intro x hx y hy hn equivs hsound
    by_cases hless : x.weight < n
    · exact ih x hx y hy hless equivs hsound
    have hweight : x.weight = n := by omega
    unfold Obj.compareIn
    split_ifs with hid hpair hkind hhash
    · rw [H.expr_unique hx hy hid, Rose.cmp_self]
      exact gives_some hsound _
    · rw [hsound x hx y hy hpair, Rose.cmp_self]
      exact gives_some hsound _
    · have hkindcmp : Ord.compare x.kind y.kind ≠ .eq := mt compare_eq_iff_eq.mp hkind
      have hcmp : Rose.cmp (x.tree hv) (y.tree hv) = Ord.compare x.kind y.kind := by
        rw [Obj.tree_eq, Obj.tree_eq, Rose.cmp, compare_label]
        cases h : Ord.compare x.kind y.kind with
        | eq => exact absurd h hkindcmp
        | lt => rfl
        | gt => rfl
      rw [hcmp]
      exact gives_some hsound _
    · rw [not_not] at hkind
      have hhashcmp : Ord.compare (x.hash hv).toNat (y.hash hv).toNat ≠ .eq := by
        intro h
        exact hhash (BitVec.eq_of_toNat_eq (compare_eq_iff_eq.mp h))
      have hcmp : Rose.cmp (x.tree hv) (y.tree hv) =
          Ord.compare (x.hash hv).toNat (y.hash hv).toNat := by
        rw [Obj.tree_eq, Obj.tree_eq, Rose.cmp, compare_label, hkind, compare_eq_iff_eq.mpr rfl]
        cases h : Ord.compare (x.hash hv).toNat (y.hash hv).toNat with
        | eq => exact absurd h hhashcmp
        | lt => rfl
        | gt => rfl
      rw [hcmp]
      exact gives_some hsound _
    · rw [not_not] at hkind hhash
      have hcmp := cmp_same_hash hfits hx hy hkind hhash
      rw [hcmp]
      apply gives_unlessDecided
        (compareContents_gives ih hfits hkind hweight hx hy hsound)
      intro hcontents equivs₁ hsound₁
      have hkids := compareKids_gives ih (Obj.kids_length hkind)
        (fun k hk => ⟨H.kid_mem hx hk, hweight ▸ Obj.weight_of_mem_kids hk⟩)
        (fun k hk => H.kid_mem hy hk) hsound₁
      -- Only here is a pair stored, and the two objects have compared as equal.
      have hstored : H.Gives hv
          (unlessDecided (Obj.compareKids hv x.kids y.kids equivs₁) fun equivs =>
            some (.eq, pairOf x.id y.id :: equivs))
          ((Rose.cmpAll (x.kids.map (Obj.tree hv)) (y.kids.map (Obj.tree hv))).then .eq) := by
        apply gives_unlessDecided hkids
        intro hequal equivs₂ hsound₂
        rw [hcontents, hequal] at hcmp
        have htree : x.tree hv = y.tree hv := (Rose.cmp_eq_iff _ _).mp hcmp
        exact ⟨_, rfl, hsound₂.store hx hy htree⟩
      rwa [Ordering.then_eq] at hstored


/-- The public comparison, whatever sound pairs are in the set. -/
theorem compare_gives (hfits : H.Fits) {x y : Obj ℕ} (hx : x ∈ H.exprs) (hy : y ∈ H.exprs)
    {equivs : ExprEquivSet} (hsound : H.Sound hv equivs) :
    x.compare hv y equivs = some (Rose.cmp (x.tree hv) (y.tree hv), []) := by
  obtain ⟨equivs', hrun, _⟩ :=
    compareIn_gives hfits (x.weight + 1) x hx y hy (Nat.lt_succ_self _) equivs hsound
  rw [Obj.compare, hrun]
  rfl

end Spec

/-! ### The order -/

/-- Comparisons made one after the other on the static set. -/
def compareAll (hv : HashValue) (pairs : List (Obj ℕ × Obj ℕ)) : Option ExprEquivSet :=
  pairs.foldlM (fun equivs p => (p.1.compare hv p.2 equivs).map Prod.snd) []

/-- Each comparison leaves the set empty. -/
theorem compareAll_nil {hv : HashValue} {pairs : List (Obj ℕ × Obj ℕ)} {equivs : ExprEquivSet}
    (h : compareAll hv pairs = some equivs) : equivs = [] := by
  have hstep : ∀ (pairs : List (Obj ℕ × Obj ℕ)) (start : ExprEquivSet), start = [] →
      pairs.foldlM (fun equivs p => (p.1.compare hv p.2 equivs).map Prod.snd) start =
        some equivs → equivs = [] := by
    intro pairs
    induction pairs with
    | nil =>
      rintro _ rfl hrun
      exact (Option.some.inj hrun).symm
    | cons p pairs ih =>
      intro start _ hrun
      rw [List.foldlM_cons] at hrun
      obtain ⟨next, hnext, hrest⟩ := Option.bind_eq_some_iff.mp hrun
      obtain ⟨_, hcompare, rfl⟩ := Option.map_eq_some_iff.mp hnext
      obtain ⟨_, _, rfl⟩ := Option.map_eq_some_iff.mp hcompare
      exact ih [] rfl hrest
  exact hstep pairs [] rfl h

/-- `c` is a total order on `s` up to structure: it gives a result for any two, `eq` exactly for
one structure, opposite results for the two directions, and is transitive. -/
structure IsOrder (c : Obj ℕ → Obj ℕ → Option Ordering) (s : Set (Obj ℕ)) : Prop where
  total : ∀ x ∈ s, ∀ y ∈ s, ∃ o, c x y = some o
  eq_iff : ∀ x ∈ s, ∀ y ∈ s, c x y = some .eq ↔ x.erase = y.erase
  swap : ∀ x ∈ s, ∀ y ∈ s, ∀ o, c x y = some o → c y x = some o.swap
  trans : ∀ x ∈ s, ∀ y ∈ s, ∀ z ∈ s, c x y = some .lt → c y z = some .lt → c x z = some .lt
  congr : ∀ x ∈ s, ∀ y ∈ s, ∀ z ∈ s, c x y = some .eq → c x z = c y z

def index₀ : Obj ℕ := .constant 0 32 0

def value₀ : Obj ℕ := .constant 1 8 0

/-- One byte written again and again at one index. -/
def chain : ℕ → Updates ℕ
  | 0 => .nil
  | n + 1 => .cons n index₀ value₀ (chain n)

def readOf (id n : ℕ) : Obj ℕ := .read id ⟨0, "a"⟩ (chain n) index₀

theorem chain_cons {j k : ℕ} {i v : Obj ℕ} {next : Updates ℕ}
    (h : Updates.cons j i v next = chain k) :
    k = j + 1 ∧ i = index₀ ∧ v = value₀ ∧ next = chain j := by
  cases k with
  | zero => simp [chain] at h
  | succ k =>
    simp only [chain, Updates.cons.injEq] at h
    obtain ⟨rfl, hi, hv, hnext⟩ := h
    exact ⟨rfl, hi, hv, hnext⟩

theorem length_chain (n : ℕ) : (chain n).length = n := by
  induction n with
  | zero => rfl
  | succ n ih => rw [chain, Updates.length, ih]

def chainExprs (n : ℕ) : Set (Obj ℕ) := {index₀, value₀, readOf 2 0, readOf 3 n}

def chainNodes (n : ℕ) : Set (Updates ℕ) := {us | ∃ k ≤ n, us = chain k}

section
variable {n : ℕ}

theorem chain_kid_mem {x k : Obj ℕ} (hx : x ∈ chainExprs n) (hk : k ∈ x.kids) :
    k ∈ chainExprs n := by
  obtain rfl | rfl | rfl | rfl := hx
  · simp [index₀, Obj.kids] at hk
  · simp [value₀, Obj.kids] at hk
  · simp only [readOf, Obj.kids, List.mem_singleton] at hk
    exact Or.inl hk
  · simp only [readOf, Obj.kids, List.mem_singleton] at hk
    exact Or.inl hk

theorem chain_updates_mem {x : Obj ℕ} (hx : x ∈ chainExprs n) : x.updates ∈ chainNodes n := by
  obtain rfl | rfl | rfl | rfl := hx
  · exact ⟨0, Nat.zero_le n, rfl⟩
  · exact ⟨0, Nat.zero_le n, rfl⟩
  · exact ⟨0, Nat.zero_le n, rfl⟩
  · exact ⟨n, le_rfl, rfl⟩

variable {j : ℕ} {i v : Obj ℕ} {next : Updates ℕ}

theorem chain_index_mem (h : Updates.cons j i v next ∈ chainNodes n) : i ∈ chainExprs n := by
  obtain ⟨k, _, h⟩ := h
  exact Or.inl (chain_cons h).2.1

theorem chain_value_mem (h : Updates.cons j i v next ∈ chainNodes n) : v ∈ chainExprs n := by
  obtain ⟨k, _, h⟩ := h
  exact Or.inr (Or.inl (chain_cons h).2.2.1)

theorem chain_next_mem (h : Updates.cons j i v next ∈ chainNodes n) : next ∈ chainNodes n := by
  obtain ⟨k, hk, h⟩ := h
  obtain ⟨rfl, _, _, hnext⟩ := chain_cons h
  exact ⟨j, by omega, hnext⟩

theorem chain_expr_unique {x y : Obj ℕ} (hx : x ∈ chainExprs n) (hy : y ∈ chainExprs n)
    (h : x.id = y.id) : x = y := by
  obtain rfl | rfl | rfl | rfl := hx <;> obtain rfl | rfl | rfl | rfl := hy
  all_goals first | rfl | simp [index₀, value₀, readOf, Obj.id] at h

theorem chain_node_unique {i' v' : Obj ℕ} {next' : Updates ℕ}
    (h : Updates.cons j i v next ∈ chainNodes n)
    (h' : Updates.cons j i' v' next' ∈ chainNodes n) :
    Updates.cons j i v next = Updates.cons j i' v' next' := by
  obtain ⟨k, _, h⟩ := h
  obtain ⟨k', _, h'⟩ := h'
  obtain ⟨rfl, _⟩ := chain_cons h
  obtain ⟨rfl, _⟩ := chain_cons h'
  rw [h, h']

end

/-- A read of the untouched array, and one after `n` updates. -/
def chains (n : ℕ) : Heap where
  exprs := chainExprs n
  nodes := chainNodes n
  kid_mem := chain_kid_mem
  updates_mem := chain_updates_mem
  index_mem := chain_index_mem
  value_mem := chain_value_mem
  next_mem := chain_next_mem
  expr_unique := chain_expr_unique
  node_unique := chain_node_unique

theorem chains_fits {n : ℕ} (h : n < 2 ^ 32) : (chains n).Fits := by
  rintro us ⟨k, hk, rfl⟩
  rw [length_chain]
  omega

theorem hash_chain (hv : HashValue) (m : ℕ) : (chain (2 * m)).hash hv = 0 := by
  induction m with
  | zero => rfl
  | succ m ih =>
    rw [Nat.mul_succ, chain, chain, Updates.hash, Updates.hash, ih, ← BitVec.xor_assoc,
      BitVec.xor_self, BitVec.zero_xor]

/-- Two lengths that agree modulo the range of the counter. -/
theorem readOf_stops (hv : HashValue) {m : ℕ} (hpos : 0 < m) (hmod : 2 * m % 2 ^ 32 = 0) :
    (readOf 2 0).compare hv (readOf 3 (2 * m)) [] = none := by
  have hhash : (readOf 2 0).hash hv = (readOf 3 (2 * m)).hash hv := by
    simp only [readOf, Obj.hash, hash_chain]
    rfl
  have hsize : (chain (2 * m)).getSize = 0 := by
    rw [Updates.getSize_eq, length_chain, hmod]
  have hroots : ArrayRef.compareRoots ⟨0, "a"⟩ ⟨0, "a"⟩ (chain 0) (chain (2 * m)) = .eq := by
    simp only [ArrayRef.compareRoots, hsize]
    rfl
  have hnodes : (chain 0).compareNodes hv (chain (2 * m)) [] = none := by
    obtain ⟨k, hk⟩ : ∃ k, 2 * m = k + 1 := ⟨2 * m - 1, by omega⟩
    rw [hk]
    unfold Updates.compareNodes
    rfl
  have hcontents :
      Obj.compareContents hv (readOf 2 0) (readOf 3 (2 * m)) [] = none := by
    unfold Obj.compareContents
    simp only [readOf, hroots, unlessDecided, hnodes]
  have hrun : (readOf 2 0).compareIn hv (readOf 3 (2 * m)) [] = none := by
    unfold Obj.compareIn
    rw [if_neg (by simp [readOf, Obj.id]), if_neg (by simp), if_neg (by simp [readOf, Obj.kind]),
      if_neg (not_not.mpr hhash), hcontents]
    rfl
  rw [Obj.compare, hrun]
  rfl

end Encider
