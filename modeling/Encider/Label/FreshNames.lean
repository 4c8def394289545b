import Encider.Solver.ArrayNames
import Encider.State.ProgModel

/-! The names that are meant to be fresh: those of a state and those of the symbolic regions. -/

namespace Encider

/-- A base, an underscore and a counter. -/
def freshName (base : List Char) (counter : ℕ) : List Char := base ++ '_' :: itostr counter

/-- Both maps of counters: that of the state, whose counters are `long int`s, and `uniqueSym`. -/
structure NameCounters where
  symIdCounters : StdMap (List Char) ℕ
  uniqueSym : StdMap (List Char) ℕ

namespace NameCounters

def start : NameCounters := ⟨.empty, .empty⟩

/-- `ExecutionState::getUnique`; `none` where the counter overflows. -/
def getUnique (s : NameCounters) (n : List Char) : Option (List Char × NameCounters) :=
  match s.symIdCounters n with
  | none =>
    some (freshName n 0, { s with symIdCounters := Function.update s.symIdCounters n (some 0) })
  | some v =>
    if v + 1 < 2 ^ 63 then
      some (freshName n (v + 1),
        { s with symIdCounters := Function.update s.symIdCounters n (some (v + 1)) })
    else none

/-- The counters of the symbolic regions are `unsigned`s. -/
def getUniqueSymRegion (s : NameCounters) (name : List Char) : List Char × NameCounters :=
  let id := (s.uniqueSym name).getD 0
  (freshName name id,
    { s with uniqueSym := Function.update s.uniqueSym name (some ((id + 1) % 2 ^ 32)) })

inductive Request where
  | unique (base : List Char)
  | symRegion (base : List Char)
deriving DecidableEq

def answer (s : NameCounters) : Request → Option (List Char × NameCounters)
  | .unique base => s.getUnique base
  | .symRegion base => some (s.getUniqueSymRegion base)

/-- The names that a sequence of requests returns. -/
def answers : NameCounters → List Request → Option (List (List Char))
  | _, [] => some []
  | s, r :: rs => do
      let (name, s) ← s.answer r
      let names ← s.answers rs
      return name :: names

theorem underscore_notMem_itostr (n : ℕ) : '_' ∉ itostr n := by
  intro h
  have hdigit := Nat.isDigit_of_mem_toDigits (b := 10) (by omega) (by omega) h
  exact absurd hdigit (by decide)

/-- The last underscore of a name stands in front of the counter. -/
theorem append_underscore_cases {p ds ds' : List Char} (h : '_' :: ds = p ++ '_' :: ds')
    (hds : '_' ∉ ds) : p = [] ∧ ds = ds' := by
  cases p with
  | nil => exact ⟨rfl, List.tail_eq_of_cons_eq h⟩
  | cons c p =>
    have htail : ds = p ++ '_' :: ds' := List.tail_eq_of_cons_eq h
    rw [htail] at hds
    exact absurd (List.mem_append_right p List.mem_cons_self) hds

theorem freshName_injective {base base' : List Char} {i j : ℕ}
    (h : freshName base i = freshName base' j) : base = base' ∧ i = j := by
  rcases List.append_eq_append_iff.mp h with ⟨p, hb, hd⟩ | ⟨p, hb, hd⟩
  · obtain ⟨rfl, hij⟩ := append_underscore_cases hd (underscore_notMem_itostr i)
    exact ⟨by rw [hb, List.append_nil], itostr_injective hij⟩
  · obtain ⟨rfl, hij⟩ := append_underscore_cases hd (underscore_notMem_itostr j)
    exact ⟨by rw [hb, List.append_nil], (itostr_injective hij).symm⟩

/-- The name of a request after others. -/
def nameAfter (before : List Request) : Request → List Char
  | .unique base => freshName base (before.count (.unique base))
  | .symRegion base => freshName base (before.count (.symRegion base) % 2 ^ 32)

/-- The counters after these requests. -/
structure After (before : List Request) (s : NameCounters) : Prop where
  unique : ∀ b, s.symIdCounters b =
    if before.count (.unique b) = 0 then none else some (before.count (.unique b) - 1)
  symRegion : ∀ b, (s.uniqueSym b).getD 0 = before.count (.symRegion b) % 2 ^ 32

/-- No counter of the state overflows at this request. -/
def Room (before : List Request) : Request → Prop
  | .unique b => before.count (.unique b) < 2 ^ 63
  | .symRegion _ => True

theorem after_start : After [] start where
  unique := fun _ => rfl
  symRegion := fun _ => rfl

/-- What a request returns and leaves. -/
theorem After.answer {before : List Request} {s : NameCounters} (h : After before s) (r : Request)
    (hr : Room before r) :
    ∃ s', s.answer r = some (nameAfter before r, s') ∧ After (before ++ [r]) s' := by
  cases r with
  | unique base =>
    refine ⟨{ s with
      symIdCounters := Function.update s.symIdCounters base
        (some (before.count (.unique base))) }, ?_, ?_, ?_⟩
    · have hb := h.unique base
      simp only [NameCounters.answer, getUnique, nameAfter]
      by_cases h0 : before.count (.unique base) = 0
      · rw [if_pos h0] at hb
        simp [hb, h0]
      · rw [if_neg h0] at hb
        have hlt : before.count (.unique base) - 1 + 1 < 2 ^ 63 := by
          have : before.count (.unique base) < 2 ^ 63 := hr
          omega
        simp only [hb, if_pos hlt]
        rw [Nat.sub_add_cancel (Nat.pos_of_ne_zero h0)]
    · intro b
      by_cases hbb : b = base
      · subst hbb
        simp
      · have hne : Request.unique base ≠ .unique b := fun he => hbb (Request.unique.inj he).symm
        dsimp only
        rw [Function.update_of_ne hbb, h.unique b, List.count_append, List.count_cons_of_ne hne]
        simp
    · intro b
      rw [h.symRegion b]
      simp [List.count_append]
  | symRegion base =>
    refine ⟨(s.getUniqueSymRegion base).2, ?_, ?_, ?_⟩
    · simp only [NameCounters.answer, getUniqueSymRegion, nameAfter, h.symRegion base]
    · intro b
      simp only [getUniqueSymRegion, h.unique b]
      simp [List.count_append]
    · intro b
      simp only [getUniqueSymRegion, h.symRegion base]
      by_cases hbb : b = base
      · subst hbb
        simp [List.count_append]
      · have hne : Request.symRegion base ≠ .symRegion b :=
          fun he => hbb (Request.symRegion.inj he).symm
        rw [Function.update_of_ne hbb, h.symRegion b, List.count_append, List.count_cons_of_ne hne]
        simp

/-- Where there is no room, nothing is returned. -/
theorem After.answer_none {before : List Request} {s : NameCounters} (h : After before s)
    {r : Request} (hr : ¬ Room before r) : s.answer r = none := by
  cases r with
  | unique base =>
    have hb := h.unique base
    have hge : ¬ before.count (.unique base) < 2 ^ 63 := hr
    rw [if_neg (by omega)] at hb
    simp only [NameCounters.answer, getUnique, hb]
    rw [if_neg (by omega)]
  | symRegion base => exact absurd trivial hr

/-- The names of a run of requests after others. -/
def namesAfter (before : List Request) : List Request → List (List Char)
  | [] => []
  | r :: rs => nameAfter before r :: namesAfter (before ++ [r]) rs

theorem count_append_cons (before rs : List Request) (r q : Request) :
    (before ++ [r] ++ rs).count q = (before ++ r :: rs).count q := by
  rw [List.append_assoc, List.singleton_append]

theorem Room.count_le {before : List Request} {r : Request} (hr : Room before r)
    (hb : ∀ b, before.count (.unique b) ≤ 2 ^ 63) (b : List Char) :
    (before ++ [r]).count (.unique b) ≤ 2 ^ 63 := by
  rw [List.count_append, List.count_singleton]
  split
  · next he =>
    rw [beq_iff_eq] at he
    subst he
    have : before.count (.unique b) < 2 ^ 63 := hr
    omega
  · exact hb b

/-- The names of a run, where no counter of the state overflows. -/
theorem After.answers {before : List Request} {s : NameCounters} (h : After before s)
    (hb : ∀ b, before.count (.unique b) ≤ 2 ^ 63) (rs : List Request) (names : List (List Char)) :
    s.answers rs = some names ↔
      names = namesAfter before rs ∧ ∀ b, (before ++ rs).count (.unique b) ≤ 2 ^ 63 := by
  induction rs generalizing before s names with
  | nil =>
    rw [List.append_nil]
    exact ⟨fun he => ⟨(Option.some.inj he).symm, hb⟩, fun he => congrArg some he.1.symm⟩
  | cons r rs ih =>
    unfold NameCounters.answers namesAfter
    by_cases hr : Room before r
    · obtain ⟨s', ha, h'⟩ := h.answer r hr
      have ih := ih h' (hr.count_le hb)
      simp only [ha, Option.bind_eq_bind, Option.bind_some, count_append_cons] at ih ⊢
      constructor
      · intro he
        obtain ⟨ns, hns, he⟩ := Option.bind_eq_some_iff.mp he
        obtain ⟨rfl, hc⟩ := (ih ns).mp hns
        exact ⟨(Option.some.inj he).symm, hc⟩
      · rintro ⟨rfl, hc⟩
        rw [(ih _).mpr ⟨rfl, hc⟩]
        rfl
    · rw [h.answer_none hr]
      refine iff_of_false (by simp) ?_
      rintro ⟨-, hc⟩
      cases r with
      | symRegion b => exact hr trivial
      | unique b =>
        have hge : ¬ before.count (.unique b) < 2 ^ 63 := hr
        have := hc b
        rw [List.count_append, List.count_cons_self] at this
        omega

/-- The name at a position. -/
theorem getElem?_namesAfter (before rs : List Request) (i : ℕ) : (namesAfter before rs)[i]? =
    rs[i]?.map (nameAfter (before ++ rs.take i)) := by
  induction rs generalizing before i with
  | nil => simp [namesAfter]
  | cons r rs ih =>
    cases i with
    | zero => simp [namesAfter]
    | succ i => simp [namesAfter, ih]

/-- Every number below the count of a request is that of one of its occurrences. -/
theorem exists_occurrence (rs : List Request) (q : Request) {k : ℕ} (hk : k < rs.count q) :
    ∃ i, rs[i]? = some q ∧ (rs.take i).count q = k := by
  induction rs generalizing k with
  | nil => simp at hk
  | cons r rs ih =>
    by_cases hr : r = q
    · subst hr
      cases k with
      | zero => exact ⟨0, by simp⟩
      | succ k =>
        rw [List.count_cons_self] at hk
        obtain ⟨i, hi, hc⟩ := ih (k := k) (by omega)
        exact ⟨i + 1, by simpa using hi, by simp [hc]⟩
    · rw [List.count_cons_of_ne hr] at hk
      obtain ⟨i, hi, hc⟩ := ih hk
      exact ⟨i + 1, by simpa using hi, by simp [hc, List.count_cons_of_ne hr]⟩

/-- Requests count up from one occurrence to the next. -/
theorem count_take_lt {rs : List Request} {q : Request} {i j : ℕ} (hi : rs[i]? = some q)
    (hij : i < j) : (rs.take i).count q < (rs.take j).count q := by
  have htake : rs.take (i + 1) = rs.take i ++ [q] := by
    rw [List.take_add_one, hi]
    rfl
  have hle : (rs.take (i + 1)).count q ≤ (rs.take j).count q :=
    (List.take_prefix_take_left (by omega)).sublist.count_le q
  rw [htake, List.count_append, List.count_singleton_self] at hle
  omega

theorem count_take_le (rs : List Request) (q : Request) (i : ℕ) :
    (rs.take i).count q ≤ rs.count q :=
  (List.take_prefix i rs).sublist.count_le q

/-- No base is asked for in both ways, and none of the regions so often that its counter wraps. -/
structure Apart (rs : List Request) : Prop where
  unique : ∀ b, rs.count (.unique b) ≤ 2 ^ 63
  symRegion : ∀ b, rs.count (.symRegion b) ≤ 2 ^ 32
  bases : ∀ b, .unique b ∈ rs → .symRegion b ∉ rs

variable {rs : List Request}

theorem nameAfter_take {i : ℕ} {q : Request} (hi : rs[i]? = some q) :
    (namesAfter [] rs)[i]? = some (nameAfter (rs.take i) q) := by
  rw [getElem?_namesAfter, hi, Option.map_some, List.nil_append]

/-- Two places of one name are one place. -/
theorem place_unique (h : (namesAfter [] rs).Nodup) {i j : ℕ} {q q' : Request}
    (hi : rs[i]? = some q) (hj : rs[j]? = some q')
    (he : nameAfter (rs.take i) q = nameAfter (rs.take j) q') : i = j := by
  have hni := nameAfter_take hi
  have hnj := nameAfter_take hj
  rw [← he] at hnj
  exact (List.getElem?_inj (List.getElem?_eq_some_iff.mp hni).1 h).mp (hni.trans hnj.symm)

theorem symRegion_count_le (h : (namesAfter [] rs).Nodup) (b : List Char) :
    rs.count (.symRegion b) ≤ 2 ^ 32 := by
  by_contra hlt
  obtain ⟨i, hi, hci⟩ := exists_occurrence rs (.symRegion b) (k := 0) (by omega)
  obtain ⟨j, hj, hcj⟩ := exists_occurrence rs (.symRegion b) (k := 2 ^ 32) (by omega)
  have hij : i = j := place_unique h hi hj (by simp only [nameAfter, hci, hcj, Nat.mod_self,
    Nat.zero_mod])
  subst hij
  omega

theorem bases_apart (h : (namesAfter [] rs).Nodup) (b : List Char) (hu : .unique b ∈ rs) :
    .symRegion b ∉ rs := by
  intro hs
  obtain ⟨i, hi, hci⟩ := exists_occurrence rs _ (List.count_pos_iff.mpr hu)
  obtain ⟨j, hj, hcj⟩ := exists_occurrence rs _ (List.count_pos_iff.mpr hs)
  have hij : i = j := place_unique h hi hj (by simp only [nameAfter, hci, hcj, Nat.zero_mod])
  subst hij
  rw [hi] at hj
  cases hj

theorem Apart.name_ne (h : Apart rs) {i j : ℕ} {q q' : Request} (hij : i < j)
    (hi : rs[i]? = some q) (hj : rs[j]? = some q') :
    nameAfter (rs.take i) q ≠ nameAfter (rs.take j) q' := by
  intro he
  have hmi := List.mem_of_getElem? hi
  have hmj := List.mem_of_getElem? hj
  cases q with
  | unique b =>
    cases q' with
    | unique b' =>
      obtain ⟨rfl, hc⟩ := freshName_injective he
      have := count_take_lt hi hij
      omega
    | symRegion b' =>
      obtain ⟨rfl, -⟩ := freshName_injective he
      exact h.bases b hmi hmj
  | symRegion b =>
    cases q' with
    | unique b' =>
      obtain ⟨rfl, -⟩ := freshName_injective he
      exact h.bases b hmj hmi
    | symRegion b' =>
      obtain ⟨rfl, hc⟩ := freshName_injective he
      have hlt := count_take_lt hi hij
      have hj' : (rs.take j).count (.symRegion b) < rs.count (.symRegion b) := by
        have hlen := (List.getElem?_eq_some_iff.mp hj).1
        have := count_take_lt hj (Nat.lt_succ_self j)
        exact this.trans_le (count_take_le rs _ _)
      have hle := h.symRegion b
      rw [Nat.mod_eq_of_lt (by omega), Nat.mod_eq_of_lt (by omega)] at hc
      omega

/-- All requests are answered, each with a name of its own, exactly where the bases of the two ways
of asking are apart and no counter comes round. -/
theorem fresh_iff (rs : List Request) :
    (∃ names, start.answers rs = some names ∧ names.Nodup) ↔ Apart rs := by
  have hspec := after_start.answers (fun _ => Nat.zero_le _) rs
  simp only [List.nil_append] at hspec
  constructor
  · rintro ⟨names, hn, hnd⟩
    obtain ⟨rfl, hc⟩ := (hspec names).mp hn
    exact ⟨hc, symRegion_count_le hnd, bases_apart hnd⟩
  · intro h
    refine ⟨namesAfter [] rs, (hspec _).mpr ⟨rfl, h.unique⟩, ?_⟩
    rw [List.nodup_iff_getElem?_ne_getElem?]
    intro i j hij hj
    have hlen := List.getElem?_eq_some_iff.mpr ⟨hj, rfl⟩
    rw [getElem?_namesAfter] at hlen
    obtain ⟨q', hq', -⟩ := Option.map_eq_some_iff.mp hlen
    have hi : i < rs.length := hij.trans (List.getElem?_eq_some_iff.mp hq').1
    obtain ⟨q, hq⟩ : ∃ q, rs[i]? = some q := ⟨rs[i], List.getElem?_eq_getElem hi⟩
    rw [nameAfter_take hq, nameAfter_take hq']
    exact fun he => h.name_ne hij hq hq' (Option.some.inj he)

/-- The first name of a base is the same in both ways. -/
theorem fresh_shared : ∃ names,
    start.answers [.unique ['f'], .symRegion ['f']] = some names ∧
      names = [['f', '_', '0'], ['f', '_', '0']] ∧ ¬ names.Nodup :=
  ⟨[['f', '_', '0'], ['f', '_', '0']], by decide, rfl, by decide⟩

end NameCounters

end Encider
