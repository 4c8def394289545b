import Encider.Expr.Shared
import Encider.Lib.RoseOrder

/-!
`Expr::compare` is the lexicographic order of trees labelled with kind, hash and the fields a
class compares. The shortcuts (one address, a pair found equal before, a shared update node) only
ever skip trees that are equal.
-/

namespace Encider

variable {ι : Type}

/-- Kind, hash, name of the array, and two numbers. -/
abbrev Label := ℕ ×ₗ ℕ ×ₗ String ×ₗ ℕ ×ₗ ℕ

namespace Obj

/-- What `compareContents` looks at apart from the update nodes. -/
def attributes : Obj ι → String × ℕ × ℕ
  | constant _ w v => ("", w, v.toNat)
  | read _ root us _ => (root.name, root.address, us.getSize)
  | concat _ w _ _ => ("", w, 0)
  | extract _ _ o w => ("", o, w)
  | cast _ _ _ w => ("", w, 0)
  | notOptimized .. | select .. | not .. | binary .. => ("", 0, 0)

def label (hv : HashValue) (x : Obj ι) : Label :=
  toLex (x.kind, toLex ((x.hash hv).toNat,
    toLex (x.attributes.1, toLex (x.attributes.2.1, x.attributes.2.2))))

end Obj

def compareAttributes (a b : String × ℕ × ℕ) : Ordering :=
  (compare a.1 b.1).then ((compare a.2.1 b.2.1).then (compare a.2.2 b.2.2))

theorem compareAttributes_eq_iff (a b : String × ℕ × ℕ) :
    compareAttributes a b = .eq ↔ a = b := by
  simp only [compareAttributes, Ordering.then_eq_eq, compare_eq_iff_eq, Prod.ext_iff]

theorem compare_label (hv : HashValue) (x y : Obj ι) :
    compare (x.label hv) (y.label hv) =
      (compare x.kind y.kind).then ((compare (x.hash hv).toNat (y.hash hv).toNat).then
        (compareAttributes x.attributes y.attributes)) := by
  simp only [Obj.label, Prod.Lex.compare_def, compareLex, compareOn, ofLex_toLex,
    compareAttributes]

mutual
def Obj.tree (hv : HashValue) : Obj ι → Rose Label
  | .constant i w v => .node (Obj.label hv (.constant i w v)) []
  | .notOptimized i e => .node (Obj.label hv (.notOptimized i e)) [e.tree hv]
  | .read j root us i => .node (Obj.label hv (.read j root us i)) (us.trees hv ++ [i.tree hv])
  | .select i c t f =>
    .node (Obj.label hv (.select i c t f)) [c.tree hv, t.tree hv, f.tree hv]
  | .concat i w l r => .node (Obj.label hv (.concat i w l r)) [l.tree hv, r.tree hv]
  | .extract i e o w => .node (Obj.label hv (.extract i e o w)) [e.tree hv]
  | .cast i k e w => .node (Obj.label hv (.cast i k e w)) [e.tree hv]
  | .not i e => .node (Obj.label hv (.not i e)) [e.tree hv]
  | .binary i k l r => .node (Obj.label hv (.binary i k l r)) [l.tree hv, r.tree hv]

/-- Index and value of each update, in turn. -/
def Updates.trees (hv : HashValue) : Updates ι → List (Rose Label)
  | .nil => []
  | .cons _ i v next => i.tree hv :: v.tree hv :: next.trees hv
end

def Obj.updates : Obj ι → Updates ι
  | .read _ _ us _ => us
  | _ => .nil

theorem Obj.tree_eq (hv : HashValue) (x : Obj ι) :
    x.tree hv = .node (x.label hv) (x.updates.trees hv ++ x.kids.map (Obj.tree hv)) := by
  cases x <;> simp [tree, updates, kids, Updates.trees]

theorem Updates.length_trees (hv : HashValue) (us : Updates ι) :
    (us.trees hv).length = 2 * us.length := by
  cases us with
  | nil => rfl
  | cons i a v next =>
    simp only [trees, List.length_cons, length, next.length_trees hv]
    omega

/-! ### Trees and structure -/

mutual
theorem Obj.tree_erase (hv : HashValue) : ∀ x : Obj ι, x.erase.tree hv = x.tree hv
  | .constant .. => rfl
  | .notOptimized _ e => by
    simp only [Obj.erase, Obj.tree, e.tree_erase hv, Obj.label, Obj.kind, Obj.hash, Obj.attributes, e.hash_erase hv]
  | .read _ _ us i => by
    simp only [Obj.erase, Obj.tree, us.trees_erase hv, i.tree_erase hv, Obj.label, Obj.kind, Obj.hash, Obj.attributes,
      us.hash_erase hv, i.hash_erase hv, us.getSize_erase]
  | .select _ c t f => by
    simp only [Obj.erase, Obj.tree, c.tree_erase hv, t.tree_erase hv, f.tree_erase hv, Obj.label, Obj.kind, Obj.hash,
      Obj.attributes, c.hash_erase hv, t.hash_erase hv, f.hash_erase hv]
  | .concat _ _ l r => by
    simp only [Obj.erase, Obj.tree, l.tree_erase hv, r.tree_erase hv, Obj.label, Obj.kind, Obj.hash, Obj.attributes,
      l.hash_erase hv, r.hash_erase hv]
  | .extract _ e _ _ => by
    simp only [Obj.erase, Obj.tree, e.tree_erase hv, Obj.label, Obj.kind, Obj.hash, Obj.attributes, e.hash_erase hv]
  | .cast _ k e _ => by
    cases k <;>
      simp only [Obj.erase, Obj.tree, e.tree_erase hv, Obj.label, Obj.kind, Obj.hash, Obj.attributes, e.hash_erase hv]
  | .not _ e => by
    simp only [Obj.erase, Obj.tree, e.tree_erase hv, Obj.label, Obj.kind, Obj.hash, Obj.attributes, e.hash_erase hv]
  | .binary _ _ l r => by
    simp only [Obj.erase, Obj.tree, l.tree_erase hv, r.tree_erase hv, Obj.label, Obj.kind, Obj.hash, Obj.attributes,
      l.hash_erase hv, r.hash_erase hv]

theorem Updates.trees_erase (hv : HashValue) :
    ∀ us : Updates ι, us.erase.trees hv = us.trees hv
  | .nil => rfl
  | .cons _ i v next => by
    simp only [Updates.erase, Updates.trees, i.tree_erase hv, v.tree_erase hv, next.trees_erase hv]

theorem Updates.getSize_erase : ∀ us : Updates ι, us.erase.getSize = us.getSize
  | .nil => rfl
  | .cons _ _ _ next => by simp only [Updates.erase, Updates.getSize, next.getSize_erase]
end

theorem BinaryKind.number_injective {k k' : BinaryKind} (h : k.number = k'.number) : k = k' := by
  cases k <;> cases k' <;> first | rfl | simp [number] at h

theorem BinaryKind.ten_le_number (k : BinaryKind) : 10 ≤ k.number := by
  cases k <;> decide

/-- Two objects of one class, and of one kind of cast or binary operation. -/
inductive Obj.SameClass : Obj ι → Obj ι → Prop where
  | constant (i : ι) (w : Width) (v : BitVec w) (i' : ι) (w' : Width) (v' : BitVec w') :
      SameClass (.constant i w v) (.constant i' w' v')
  | notOptimized (i : ι) (e : Obj ι) (i' : ι) (e' : Obj ι) :
      SameClass (.notOptimized i e) (.notOptimized i' e')
  | read (i : ι) (root : ArrayRef) (us : Updates ι) (e : Obj ι) (i' : ι) (root' : ArrayRef)
      (us' : Updates ι) (e' : Obj ι) :
      SameClass (.read i root us e) (.read i' root' us' e')
  | select (i : ι) (c t f : Obj ι) (i' : ι) (c' t' f' : Obj ι) :
      SameClass (.select i c t f) (.select i' c' t' f')
  | concat (i : ι) (w : Width) (l r : Obj ι) (i' : ι) (w' : Width) (l' r' : Obj ι) :
      SameClass (.concat i w l r) (.concat i' w' l' r')
  | extract (i : ι) (e : Obj ι) (o : ℕ) (w : Width) (i' : ι) (e' : Obj ι) (o' : ℕ)
      (w' : Width) :
      SameClass (.extract i e o w) (.extract i' e' o' w')
  | cast (k : CastKind) (i : ι) (e : Obj ι) (w : Width) (i' : ι) (e' : Obj ι) (w' : Width) :
      SameClass (.cast i k e w) (.cast i' k e' w')
  | not (i : ι) (e : Obj ι) (i' : ι) (e' : Obj ι) :
      SameClass (.not i e) (.not i' e')
  | binary (k : BinaryKind) (i : ι) (l r : Obj ι) (i' : ι) (l' r' : Obj ι) :
      SameClass (.binary i k l r) (.binary i' k l' r')

theorem Obj.sameClass {x y : Obj ι} (h : x.kind = y.kind) : SameClass x y := by
  cases x with
  | constant =>
    cases y with
    | constant => exact .constant ..
    | cast _ k => cases k <;> simp [kind] at h
    | binary _ k => have := k.ten_le_number; simp only [kind] at h; omega
    | _ => simp [kind] at h
  | notOptimized =>
    cases y with
    | notOptimized => exact .notOptimized ..
    | cast _ k => cases k <;> simp [kind] at h
    | binary _ k => have := k.ten_le_number; simp only [kind] at h; omega
    | _ => simp [kind] at h
  | read =>
    cases y with
    | read => exact .read ..
    | cast _ k => cases k <;> simp [kind] at h
    | binary _ k => have := k.ten_le_number; simp only [kind] at h; omega
    | _ => simp [kind] at h
  | select =>
    cases y with
    | select => exact .select ..
    | cast _ k => cases k <;> simp [kind] at h
    | binary _ k => have := k.ten_le_number; simp only [kind] at h; omega
    | _ => simp [kind] at h
  | concat =>
    cases y with
    | concat => exact .concat ..
    | cast _ k => cases k <;> simp [kind] at h
    | binary _ k => have := k.ten_le_number; simp only [kind] at h; omega
    | _ => simp [kind] at h
  | extract =>
    cases y with
    | extract => exact .extract ..
    | cast _ k => cases k <;> simp [kind] at h
    | binary _ k => have := k.ten_le_number; simp only [kind] at h; omega
    | _ => simp [kind] at h
  | cast i k =>
    cases y with
    | cast i' k' =>
      obtain rfl : k = k' := by cases k <;> cases k' <;> first | rfl | simp [kind] at h
      exact .cast ..
    | binary _ k' =>
      have := k'.ten_le_number
      cases k <;> simp only [kind] at h <;> omega
    | _ => cases k <;> simp [kind] at h
  | not =>
    cases y with
    | not => exact .not ..
    | cast _ k => cases k <;> simp [kind] at h
    | binary _ k => have := k.ten_le_number; simp only [kind] at h; omega
    | _ => simp [kind] at h
  | binary i k =>
    have := k.ten_le_number
    cases y with
    | binary i' k' =>
      obtain rfl : k = k' := BinaryKind.number_injective h
      exact .binary ..
    | cast _ k' => cases k' <;> simp only [kind] at h <;> omega
    | _ => simp only [kind] at h; omega

/-- Kind, attributes, updates and kids make up the structure. -/
theorem Obj.erase_eq {x y : Obj ι} (hkind : x.kind = y.kind)
    (hattr : x.attributes = y.attributes) (hupdates : x.updates.erase = y.updates.erase)
    (hkids : x.kids.map erase = y.kids.map erase) : x.erase = y.erase := by
  cases sameClass hkind with
  | constant i w v i' w' v' =>
    simp only [attributes, Prod.mk.injEq] at hattr
    obtain ⟨_, rfl, hv⟩ := hattr
    rw [BitVec.eq_of_toNat_eq hv, erase, erase]
  | read i root us e i' root' us' e' =>
    simp only [attributes, Prod.mk.injEq] at hattr
    have hroot : root = root' := by
      cases root
      cases root'
      simp_all
    simp only [updates] at hupdates
    simpa [erase, kids, hroot, hupdates] using hkids
  | concat =>
    simp only [attributes, Prod.mk.injEq] at hattr
    simpa [erase, kids, hattr] using hkids
  | extract =>
    simp only [attributes, Prod.mk.injEq] at hattr
    simpa [erase, kids, hattr] using hkids
  | cast =>
    simp only [attributes, Prod.mk.injEq] at hattr
    simpa [erase, kids, hattr] using hkids
  | notOptimized => simpa [erase, kids] using hkids
  | select => simpa [erase, kids] using hkids
  | not => simpa [erase, kids] using hkids
  | binary => simpa [erase, kids] using hkids

end Encider
