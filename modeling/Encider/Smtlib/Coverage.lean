import Encider.Smtlib.Script

/-! Which arrays `scan` finds: all, where no writes are passed over that have not been scanned with
the first read of their array. -/

namespace Encider

mutual
/-- The reads of an expression with the writes below them, in the order of `scan`. -/
def Expr.arrayReads : Expr → List (Array × UpdateList)
  | .constant _ _ => []
  | .notOptimized e => e.arrayReads
  | .read a us i => (a, us) :: (us.arrayReads ++ i.arrayReads)
  | .select c t f => c.arrayReads ++ t.arrayReads ++ f.arrayReads
  | .concat l r => l.arrayReads ++ r.arrayReads
  | .extract e _ _ => e.arrayReads
  | .zext e _ => e.arrayReads
  | .sext e _ => e.arrayReads
  | .not e => e.arrayReads
  | .binary _ l r => l.arrayReads ++ r.arrayReads

def UpdateList.arrayReads : UpdateList → List (Array × UpdateList)
  | .nil => []
  | .cons i v next => i.arrayReads ++ v.arrayReads ++ next.arrayReads
end

namespace Smtlib

/-- The reads of a query, in the order of `scanAll`. -/
def Query.arrayReads (q : Query) : List (Array × UpdateList) := q.roots.flatMap Expr.arrayReads

/-- A read below writes has the writes of the first read of its array. -/
def WritesScanned (rs : List (Array × UpdateList)) : Prop :=
  ∀ r ∈ rs, r.2 = .nil ∨ rs.lookup r.1 = some r.2

instance (rs : List (Array × UpdateList)) : Decidable (WritesScanned rs) :=
  inferInstanceAs (Decidable (∀ r ∈ rs, r.2 = .nil ∨ rs.lookup r.1 = some r.2))

section
variable (L : List (Array × UpdateList))

/-- What has been scanned has all its arrays in use; expressions and writes larger than `n` may still
be under way. -/
structure Scanned (n : ℕ) (s : Scan) : Prop where
  seen : ∀ x ∈ s.seenExprs, x.size ≤ n → ∀ r ∈ x.arrayReads, r.1 ∈ s.usedArrays
  used : ∀ a ∈ s.usedArrays, ∀ us, L.lookup a = some us → us.size ≤ n →
    ∀ r ∈ us.arrayReads, r.1 ∈ s.usedArrays

/-- What is new has been scanned. -/
structure Grows (s s' : Scan) : Prop where
  mono : ∀ a ∈ s.usedArrays, a ∈ s'.usedArrays
  seen : ∀ x ∈ s'.seenExprs, x ∈ s.seenExprs ∨ ∀ r ∈ x.arrayReads, r.1 ∈ s'.usedArrays
  used : ∀ a ∈ s'.usedArrays, a ∈ s.usedArrays ∨
    ∀ us, L.lookup a = some us → ∀ r ∈ us.arrayReads, r.1 ∈ s'.usedArrays

/-- Scanning brings all these reads into use, where they are the next ones. -/
def Covers (rs : List (Array × UpdateList)) (n : ℕ) (f : Scan → Scan) : Prop :=
  ∀ pre post s, L = pre ++ rs ++ post → (∀ r ∈ pre, r.1 ∈ s.usedArrays) → Scanned L n s →
    Grows L s (f s) ∧ ∀ r ∈ rs, r.1 ∈ (f s).usedArrays

variable {L}

theorem Grows.refl (s : Scan) : Grows L s s :=
  ⟨fun _ h => h, fun _ h => .inl h, fun _ h => .inl h⟩

theorem Grows.trans {s t u : Scan} (h : Grows L s t) (h' : Grows L t u) : Grows L s u where
  mono a ha := h'.mono a (h.mono a ha)
  seen x hx := by
    obtain hx | hx := h'.seen x hx
    · obtain hx | hx := h.seen x hx
      · exact .inl hx
      · exact .inr fun r hr => h'.mono _ (hx r hr)
    · exact .inr hx
  used a ha := by
    obtain ha | ha := h'.used a ha
    · obtain ha | ha := h.used a ha
      · exact .inl ha
      · exact .inr fun us hus r hr => h'.mono _ (ha us hus r hr)
    · exact .inr ha

theorem Scanned.grows {n : ℕ} {s t : Scan} (h : Scanned L n s) (hg : Grows L s t) :
    Scanned L n t where
  seen x hx hn r hr := by
    obtain hx | hx := hg.seen x hx
    · exact hg.mono _ (h.seen x hx hn r hr)
    · exact hx r hr
  used a ha us hus hn r hr := by
    obtain ha | ha := hg.used a ha
    · exact hg.mono _ (h.used a ha us hus hn r hr)
    · exact ha us hus r hr

theorem Scanned.mono {m n : ℕ} {s : Scan} (h : Scanned L n s) (hmn : m ≤ n) : Scanned L m s where
  seen x hx hm := h.seen x hx (hm.trans hmn)
  used a ha us hus hm := h.used a ha us hus (hm.trans hmn)

namespace Covers

variable {rs ts : List (Array × UpdateList)} {m n : ℕ} {f g : Scan → Scan}

theorem mono (h : Covers L rs m f) (hmn : m ≤ n) : Covers L rs n f := by
  intro pre post s hL hpre hs
  exact h pre post s hL hpre (hs.mono hmn)

theorem nothing : Covers L [] n fun s => s := by
  intro pre post s _ _ _
  exact ⟨.refl s, nofun⟩

theorem comp (hf : Covers L rs n f) (hg : Covers L ts n g) :
    Covers L (rs ++ ts) n fun s => g (f s) := by
  intro pre post s hL hpre hs
  obtain ⟨hgrow, hrs⟩ := hf pre (ts ++ post) s (by simpa using hL) hpre hs
  have hpre' : ∀ r ∈ pre ++ rs, r.1 ∈ (f s).usedArrays := by
    intro r hr
    obtain hr | hr := List.mem_append.mp hr
    · exact hgrow.mono _ (hpre r hr)
    · exact hrs r hr
  obtain ⟨hgrow', hts⟩ := hg (pre ++ rs) post (f s) (by simpa using hL) hpre' (hs.grows hgrow)
  refine ⟨hgrow.trans hgrow', ?_⟩
  intro r hr
  obtain hr | hr := List.mem_append.mp hr
  · exact hgrow'.mono _ (hrs r hr)
  · exact hts r hr

/-- While an expression is being scanned it counts as larger than its parts. -/
theorem visit {e : Expr} (h : Covers L e.arrayReads m f) (hm : m < e.size) :
    Covers L e.arrayReads e.size fun s => s.visit e f := by
  intro pre post s hL hpre hs
  simp only [Scan.visit]
  split
  · rename_i he
    have harrays := hs.seen e he (Nat.le_refl _)
    split
    · exact ⟨.refl s, harrays⟩
    · exact ⟨⟨fun _ h => h, fun _ h => .inl h, fun _ h => .inl h⟩, harrays⟩
  · have hs' : Scanned L m { s with seenExprs := e :: s.seenExprs } := by
      constructor
      · intro x hx hxm
        obtain rfl | hx := List.mem_cons.mp hx
        · omega
        · exact hs.seen x hx (by omega)
      · intro a ha us hus husm
        exact hs.used a ha us hus (by omega)
    obtain ⟨hgrow, harrays⟩ := h pre post { s with seenExprs := e :: s.seenExprs } hL hpre hs'
    refine ⟨⟨hgrow.mono, ?_, hgrow.used⟩, harrays⟩
    intro x hx
    obtain hx | hx := hgrow.seen x hx
    · obtain rfl | hx := List.mem_cons.mp hx
      · exact .inr harrays
      · exact .inl hx
    · exact .inr hx

/-- The writes below a read have been scanned, or they are scanned now. -/
theorem use (hL : WritesScanned L) {a : Array} {us : UpdateList}
    (h : Covers L us.arrayReads (us.size - 1) f) :
    Covers L ((a, us) :: us.arrayReads) us.size fun s => s.use a f := by
  intro pre post s hsplit hpre hs
  have hmem : (a, us) ∈ L := by
    rw [hsplit]
    simp
  simp only [Scan.use]
  split
  · rename_i ha
    refine ⟨.refl s, ?_⟩
    intro r hr
    obtain rfl | hr := List.mem_cons.mp hr
    · exact ha
    · obtain hnil | hfirst := hL _ hmem
      · rw [show us = .nil from hnil] at hr
        cases hr
      · exact hs.used a ha us hfirst (Nat.le_refl _) r hr
  · rename_i ha
    -- no read before this one is over the array
    have hfirst : L.lookup a = some us := by
      have hnone : pre.lookup a = none := by
        rw [List.lookup_eq_none_iff]
        intro r hr
        have hra := hpre r hr
        simp only [bne_iff_ne, ne_eq]
        rintro rfl
        exact ha hra
      rw [hsplit, List.append_assoc, List.lookup_append, hnone]
      simp
    have hs' : Scanned L (us.size - 1) { s with
        usedArrays := a :: s.usedArrays
        haveConstantArray := s.haveConstantArray || !a.constantValues.isEmpty } := by
      constructor
      · intro x hx hn r hr
        exact List.mem_cons_of_mem _ (hs.seen x hx (by omega) r hr)
      · intro a' ha' us' hus' hn r hr
        obtain rfl | ha' := List.mem_cons.mp ha'
        · rw [hfirst] at hus'
          cases hus'
          have hzero : us.size = 0 := by omega
          cases us with
          | nil => cases hr
          | cons i v next =>
            simp only [UpdateList.size] at hzero
            omega
        · exact List.mem_cons_of_mem _ (hs.used a' ha' us' hus' (by omega) r hr)
    obtain ⟨hgrow, harrays⟩ := h (pre ++ [(a, us)]) post _ (by simpa using hsplit) (by
      intro r hr
      obtain hr | hr := List.mem_append.mp hr
      · exact List.mem_cons_of_mem _ (hpre r hr)
      · rw [List.mem_singleton.mp hr]
        exact List.mem_cons_self) hs'
    have hmono : ∀ a' ∈ s.usedArrays, a' ∈ (f { s with
        usedArrays := a :: s.usedArrays
        haveConstantArray := s.haveConstantArray || !a.constantValues.isEmpty }).usedArrays :=
      fun a' ha' => hgrow.mono a' (List.mem_cons_of_mem _ ha')
    refine ⟨⟨hmono, hgrow.seen, ?_⟩, ?_⟩
    · intro a' ha'
      obtain ha' | ha' := hgrow.used a' ha'
      · obtain rfl | ha' := List.mem_cons.mp ha'
        · right
          intro us' hus'
          rw [hfirst] at hus'
          cases hus'
          exact harrays
        · exact .inl ha'
      · exact .inr ha'
    · intro r hr
      obtain rfl | hr := List.mem_cons.mp hr
      · exact hgrow.mono _ List.mem_cons_self
      · exact harrays r hr

end Covers

/-- By induction on the expression: its parts are scanned one after the other. -/
theorem scan_covers (hL : WritesScanned L) (e : Expr) : Covers L e.arrayReads e.size (scan e) := by
  induction e using Expr.rec (motive_2 := fun us =>
    Covers L us.arrayReads (us.size - 1) (scanUpdates us)) with
  | constant w v => exact Covers.nothing
  | notOptimized e ih => exact Covers.visit (e := .notOptimized e) ih (Nat.lt_succ_self _)
  | read a us i hus hi =>
    have huse := (Covers.use hL hus (a := a)).mono (Nat.le_add_right us.size i.size)
    exact Covers.visit (e := .read a us i) (huse.comp (hi.mono (Nat.le_add_left _ _)))
      (Nat.lt_succ_self _)
  | select c t f hc ht hf =>
    refine Covers.visit (e := .select c t f) (m := c.size + t.size + f.size)
      (((hc.mono ?_).comp (ht.mono ?_)).comp (hf.mono ?_)) (Nat.lt_succ_self _)
    all_goals omega
  | concat l r hl hr =>
    exact Covers.visit (e := .concat l r)
      ((hl.mono (Nat.le_add_right _ _)).comp (hr.mono (Nat.le_add_left _ _))) (Nat.lt_succ_self _)
  | extract e low w ih => exact Covers.visit (e := .extract e low w) ih (Nat.lt_succ_self _)
  | zext e w ih => exact Covers.visit (e := .zext e w) ih (Nat.lt_succ_self _)
  | sext e w ih => exact Covers.visit (e := .sext e w) ih (Nat.lt_succ_self _)
  | not e ih => exact Covers.visit (e := .not e) ih (Nat.lt_succ_self _)
  | binary k l r hl hr =>
    exact Covers.visit (e := .binary k l r)
      ((hl.mono (Nat.le_add_right _ _)).comp (hr.mono (Nat.le_add_left _ _))) (Nat.lt_succ_self _)
  | nil => exact Covers.nothing
  | cons i v next hi hv hnext =>
    refine ((hi.mono ?_).comp (hv.mono ?_)).comp (hnext.mono ?_)
    all_goals
      simp only [UpdateList.size]
      omega

theorem foldl_covers (hL : WritesScanned L) (es : List Expr) (pre post : List (Array × UpdateList))
    (s : Scan) (hsplit : L = pre ++ es.flatMap Expr.arrayReads ++ post)
    (hpre : ∀ r ∈ pre, r.1 ∈ s.usedArrays) (hs : ∀ n, Scanned L n s) :
    ∀ r ∈ pre ++ es.flatMap Expr.arrayReads,
      r.1 ∈ (es.foldl (fun s e => scan e s) s).usedArrays := by
  induction es generalizing pre s with
  | nil => simpa using hpre
  | cons e es ih =>
    obtain ⟨hgrow, harrays⟩ := scan_covers hL e pre (es.flatMap Expr.arrayReads ++ post) s
      (by simpa using hsplit) hpre (hs _)
    have h := ih (pre ++ e.arrayReads) (scan e s) (by simpa using hsplit) (by
      intro r hr
      obtain hr | hr := List.mem_append.mp hr
      · exact hgrow.mono _ (hpre r hr)
      · exact harrays r hr) (fun n => (hs n).grows hgrow)
    intro r hr
    exact h r (by simpa using hr)

end

/-- All arrays of the query are found. -/
theorem scanAll_covers {q : Query} (h : WritesScanned q.arrayReads) :
    ∀ r ∈ q.arrayReads, r.1 ∈ (scanAll q).usedArrays := by
  have hempty : ∀ n, Scanned q.arrayReads n {} := fun n => ⟨nofun, nofun⟩
  have := foldl_covers h q.roots [] [] {} (by simp [Query.arrayReads]) nofun hempty
  simpa [Query.arrayReads, scanAll] using this

end Smtlib

end Encider
