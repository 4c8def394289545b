import Encider.Adt.PdfRun
import Encider.Lib.Fold

/-! What `choose` of a `DiscretePDF` gives: an item that is there, and each item for its share. -/

namespace Encider.DiscretePDF

open Zipper

section walk

variable {T W : Type}

theorem missing_iff {t : DiscretePDF T W} : missing t = true ↔ t = .nil := by
  cases t <;> simp [missing]

variable [Field W]

theorem sumWeights_missing {t : DiscretePDF T W} (h : missing t = true) : sumWeights t = 0 := by
  rw [missing_iff.mp h]
  rfl

theorem Summed.total {t : DiscretePDF T W} (h : Summed t) :
    sumWeights t = ((listed PdfNode.item t).map Prod.snd).sum := by
  rw [h.sumWeights_eq, listed_map]
  rfl

variable [LinearOrder W]

/-- A turn of the loop. -/
theorem chooseFrom_node (n : PdfNode T W) (l r : DiscretePDF T W) (w : W) :
    chooseFrom (.node n l r) w =
      if missing l = false ∧ w < sumWeights l then chooseFrom l w
      else if w - sumWeights l < n.weight ∨ missing r = true then some n.key
      else chooseFrom r (w - sumWeights l - n.weight) := by
  by_cases hl : missing l = true
  · simp [chooseFrom, hl, sumWeights_missing]
  · simp [chooseFrom, hl]

/-- The walk ends at a node. -/
theorem chooseFrom_mem {t : DiscretePDF T W} (h : t ≠ .nil) (w : W) :
    ∃ k ∈ listed PdfNode.key t, chooseFrom t w = some k := by
  induction t generalizing w with
  | nil => exact absurd rfl h
  | node n l r ihl ihr =>
    rw [chooseFrom_node]
    split_ifs with hleft hhere
    · have hl : l ≠ .nil := fun hl => by simp [hl, missing] at hleft
      obtain ⟨k, hk, hchoose⟩ := ihl hl w
      exact ⟨k, by simp [hk], hchoose⟩
    · exact ⟨n.key, by simp, rfl⟩
    · have hr : r ≠ .nil := fun hr => by simp [hr, missing] at hhere
      obtain ⟨k, hk, hchoose⟩ := ihr hr (w - sumWeights l - n.weight)
      exact ⟨k, by simp [hk], hchoose⟩

variable [IsStrictOrderedRing W]

/-- Of the items in a row, the one in whose stretch of the total weight the number lies. -/
structure Chosen (es : List (T × W)) (w : W) (k : T) (l r : List (T × W)) (x : W) : Prop where
  split : es = l ++ (k, x) :: r
  start : (l.map Prod.snd).sum ≤ w
  stop : w < (l.map Prod.snd).sum + x

theorem chooseFrom_chosen {t : DiscretePDF T W} (hs : Summed t) {w : W} (h0 : 0 ≤ w)
    (hw : w < sumWeights t) :
    ∃ k l r x, chooseFrom t w = some k ∧ Chosen (listed PdfNode.item t) w k l r x := by
  induction t generalizing w with
  | nil => exact absurd hw (not_lt.mpr h0)
  | node n left right ihl ihr =>
    obtain ⟨hsl, hsr, hsum⟩ := hs
    have hw : w < n.weight + sumWeights left + sumWeights right := hsum ▸ hw
    have hl : ((listed PdfNode.item left).map Prod.snd).sum = sumWeights left := hsl.total.symm
    rw [chooseFrom_node]
    split_ifs with hleft hhere
    · obtain ⟨k, l, r, x, hchoose, hsplit, hstart, hstop⟩ := ihl hsl h0 hleft.2
      exact ⟨k, l, r ++ n.item :: listed PdfNode.item right, x, hchoose, by simp [hsplit], hstart,
        hstop⟩
    · have hge : sumWeights left ≤ w := by
        by_contra hlt
        have hmissing : missing left = true := by
          by_contra hm
          exact hleft ⟨by simpa using hm, not_le.mp hlt⟩
        rw [sumWeights_missing hmissing] at hlt
        exact hlt h0
      have hlt : w - sumWeights left < n.weight := by
        obtain hlt | hmissing := hhere
        · exact hlt
        · rw [sumWeights_missing hmissing] at hw
          linarith
      exact ⟨n.key, listed PdfNode.item left, listed PdfNode.item right, n.weight, rfl, rfl,
        hl.trans_le hge, by rw [hl]; linarith⟩
    · push Not at hhere
      obtain ⟨k, l, r, x, hchoose, hsplit, hstart, hstop⟩ := ihr hsr
        (w := w - sumWeights left - n.weight) (by linarith) (by linarith)
      refine ⟨k, listed PdfNode.item left ++ n.item :: l, r, x, hchoose, by simp [hsplit], ?_, ?_⟩
      · rw [List.map_append, List.sum_append, hl, List.map_cons, List.sum_cons, PdfNode.item]
        linarith
      · rw [List.map_append, List.sum_append, hl, List.map_cons, List.sum_cons, PdfNode.item]
        linarith

end walk

section share

variable {T W : Type} [Field W]

theorem sum_split (l r : List (T × W)) (k : T) (x : W) :
    ((l ++ (k, x) :: r).map Prod.snd).sum =
      (l.map Prod.snd).sum + x + (r.map Prod.snd).sum := by
  simp [add_assoc]

variable [LinearOrder W] [IsStrictOrderedRing W]

theorem sum_weights_nonneg {es : List (T × W)} (hpos : ∀ e ∈ es, 0 ≤ e.2) :
    0 ≤ (es.map Prod.snd).sum := by
  refine List.sum_nonneg fun x hx => ?_
  obtain ⟨e, he, rfl⟩ := List.mem_map.mp hx
  exact hpos e he

/-- Two stretches that share a number belong to one item. -/
theorem Chosen.unique {es l r l' r' : List (T × W)} {w x x' : W} {k k' : T}
    (hpos : ∀ e ∈ es, 0 ≤ e.2) (h : Chosen es w k l r x) (h' : Chosen es w k' l' r' x') :
    k = k' := by
  obtain ⟨-, hk, -⟩ | ⟨c, rfl, hr⟩ | ⟨c, rfl, hr⟩ := split_cases (h.split.symm.trans h'.split)
  · exact congrArg Prod.fst hk
  · have hc : 0 ≤ (c.map Prod.snd).sum :=
      sum_weights_nonneg fun e he => hpos e (by simp [h.split, hr, he])
    have hstart := h'.start
    have hstop := h.stop
    rw [sum_split] at hstart
    linarith
  · have hc : 0 ≤ (c.map Prod.snd).sum :=
      sum_weights_nonneg fun e he => hpos e (by simp [h'.split, hr, he])
    have hstart := h.start
    have hstop := h'.stop
    rw [sum_split] at hstart
    linarith

variable [LinearOrder T] {t : DiscretePDF T W} {m : T → Option W}

/-- The total weight, and what is before and after an item. -/
theorem Represents.total (h : Represents t m) (hpos : ∀ k w, m k = some w → 0 ≤ w) {k : T} {x : W}
    {l r : List (T × W)} (hsplit : listed PdfNode.item t = l ++ (k, x) :: r) :
    0 ≤ (l.map Prod.snd).sum ∧ (l.map Prod.snd).sum + x ≤ sumWeights t := by
  have hweights : ∀ e ∈ l ++ (k, x) :: r, 0 ≤ e.2 := fun e he =>
    hpos e.1 e.2 ((h.lists.entries e.1 e.2).mp (hsplit ▸ he))
  have hr : 0 ≤ (r.map Prod.snd).sum := sum_weights_nonneg fun e he => hweights e (by simp [he])
  refine ⟨sum_weights_nonneg fun e he => hweights e (by simp [he]), ?_⟩
  rw [h.sound.summed.total, hsplit, sum_split]
  linarith

/-- `choose` gives an item exactly for the numbers in the item's stretch. -/
theorem Represents.choose_iff (h : Represents t m) (hpos : ∀ k w, m k = some w → 0 ≤ w)
    (htotal : 0 < sumWeights t) {k : T} {x : W} {l r : List (T × W)}
    (hsplit : listed PdfNode.item t = l ++ (k, x) :: r) (p : W) :
    choose p t = some k ↔ 0 ≤ p ∧ p < 1 ∧ (l.map Prod.snd).sum ≤ sumWeights t * p ∧
      sumWeights t * p < (l.map Prod.snd).sum + x := by
  have hweights : ∀ e ∈ listed PdfNode.item t, 0 ≤ e.2 := fun e he =>
    hpos e.1 e.2 ((h.lists.entries e.1 e.2).mp he)
  unfold choose
  split_ifs with hp hm
  · refine iff_of_false (by simp) ?_
    rintro ⟨h0, h1, -⟩
    obtain hp | hp := hp
    · exact absurd hp (not_lt.mpr h0)
    · exact absurd h1 (not_lt.mpr hp)
  · rw [missing_iff.mp hm] at htotal
    exact absurd rfl htotal.ne
  · push Not at hp
    obtain ⟨k', l', r', x', hchoose, hchosen⟩ := chooseFrom_chosen h.sound.summed
      (mul_nonneg htotal.le hp.1) (by nlinarith [hp.2] : sumWeights t * p < sumWeights t)
    rw [hchoose, Option.some.injEq]
    constructor
    · intro hk
      subst hk
      have hl' : l' = l := (hsplit ▸ h.lists).place (hsplit ▸ hchosen.split)
      subst hl'
      have hx' : x = x' := by
        have hrest := List.append_cancel_left (hsplit.symm.trans hchosen.split)
        exact (Prod.mk.inj (List.cons.inj hrest).1).2
      exact ⟨hp.1, hp.2, hchosen.start, hx' ▸ hchosen.stop⟩
    · rintro ⟨-, -, hstart, hstop⟩
      exact hchosen.unique hweights ⟨hsplit, hstart, hstop⟩

end share

section measure

open MeasureTheory

variable {T : Type} [LinearOrder T] {t : DiscretePDF T ℝ} {m : T → Option ℝ}

/-- The numbers for which `choose` gives an item, and how many they are. -/
theorem Represents.volume_choose (h : Represents t m) (hpos : ∀ k w, m k = some w → 0 ≤ w)
    (hpositive : 0 < sumWeights t) {k : T} {x : ℝ} (hk : m k = some x) :
    volume {p : ℝ | choose p t = some k} = ENNReal.ofReal (x / sumWeights t) := by
  obtain ⟨l, r, hsplit⟩ := List.append_of_mem ((h.lists.entries k x).mpr hk)
  obtain ⟨hl, htotal⟩ := h.total hpos hsplit
  have hset : {p : ℝ | choose p t = some k} = Set.Ico ((l.map Prod.snd).sum / sumWeights t)
      (((l.map Prod.snd).sum + x) / sumWeights t) := by
    ext p
    rw [Set.mem_ofPred_eq, h.choose_iff hpos hpositive hsplit, Set.mem_Ico, div_le_iff₀ hpositive,
      lt_div_iff₀ hpositive, mul_comm p]
    refine ⟨fun hp => hp.2.2, fun hp => ⟨?_, ?_, hp⟩⟩
    · exact nonneg_of_mul_nonneg_right (hl.trans hp.1) hpositive
    · have hlt : sumWeights t * p < sumWeights t * 1 := by linarith [hp.2]
      exact lt_of_mul_lt_mul_left hlt hpositive.le
  rw [hset, Real.volume_Ico]
  congr 1
  ring

theorem Represents.choose_mem (h : Represents t m) {k : T} {p : ℝ} (hp : choose p t = some k) :
    ∃ x, m k = some x := by
  unfold choose at hp
  split_ifs at hp with h1 h2
  obtain ⟨k', hk', hchoose⟩ := chooseFrom_mem (mt missing_iff.mpr h2) (sumWeights t * p)
  obtain rfl : k' = k := Option.some.inj (hchoose.symm.trans hp)
  have hkeys : (listed PdfNode.item t).map Prod.fst = listed PdfNode.key t := listed_map _ _ _
  rw [← hkeys] at hk'
  obtain ⟨e, he, rfl⟩ := List.mem_map.mp hk'
  exact ⟨e.2, (h.lists.entries e.1 e.2).mp he⟩

/-- The same for what is there and what is not. -/
theorem Represents.volume_share (h : Represents t m) (hpos : ∀ k w, m k = some w → 0 ≤ w)
    (htotal : 0 < ((listed PdfNode.item t).map Prod.snd).sum) (k : T) :
    volume {p : ℝ | choose p t = some k} =
      ENNReal.ofReal ((m k).getD 0 / ((listed PdfNode.item t).map Prod.snd).sum) := by
  rw [← h.sound.summed.total] at htotal ⊢
  cases hk : m k with
  | some x => exact h.volume_choose hpos htotal hk
  | none =>
    have hempty : {p : ℝ | choose p t = some k} = ∅ := by
      refine Set.eq_empty_of_forall_notMem fun p hp => ?_
      obtain ⟨x, hx⟩ := h.choose_mem hp
      simp [hk] at hx
    simp [hempty]

/-- A call that gives no item a negative weight. -/
def Call.NotNegative : Call T ℝ → Prop
  | .insert _ weight => 0 ≤ weight
  | .remove _ => True
  | .update _ weight => 0 ≤ weight

omit [LinearOrder T] in
theorem notNegative_update [DecidableEq T] (hpos : ∀ k w, m k = some w → 0 ≤ w) (item : T)
    {o : Option ℝ} (ho : ∀ w, o = some w → 0 ≤ w) (k : T) (w : ℝ)
    (h : Function.update m item o k = some w) : 0 ≤ w := by
  by_cases hk : k = item
  · subst hk
    rw [Function.update_self] at h
    exact ho w h
  · rw [Function.update_of_ne hk] at h
    exact hpos k w h

theorem Call.NotNegative.model {c : Call T ℝ} (hc : c.NotNegative)
    (hpos : ∀ k w, m k = some w → 0 ≤ w)
    {m' : T → Option ℝ} (h : c.model m = some m') : ∀ k w, m' k = some w → 0 ≤ w := by
  cases c with
  | insert item weight =>
    rw [Call.model] at h
    split_ifs at h
    cases h
    exact notNegative_update hpos item fun w hw => by
      cases hw
      exact hc
  | remove item =>
    rw [Call.model] at h
    split_ifs at h
    cases h
    exact notNegative_update hpos item fun w hw => by cases hw
  | update item weight =>
    rw [Call.model] at h
    split_ifs at h
    cases h
    exact notNegative_update hpos item fun w hw => by
      cases hw
      exact hc

end measure

end Encider.DiscretePDF
