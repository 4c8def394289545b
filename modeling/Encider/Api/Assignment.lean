import Encider.Api.SideEffect

/-! Where `SideEffectAPIHandler::interpret` is the assignment that the specification says. -/

namespace Encider.SideEffect

/-- An address and the type of what is there. -/
structure Place where
  address : Nat
  type : CType
deriving DecidableEq, Repr

section
variable (c : Call) (m : Contents)

/-- The width of the values of a type. -/
def widthOf : CType → Width
  | .bool => 1
  | .scalar bytes => bytes * 8
  | .pointer _ => 64
  | .struct name => ((c.structLayout name).elim 0 StructLayout.size) * 8

/-- The object that all bytes of a place are in. -/
def objectOf (p : Place) : Option ObjectPair :=
  (m.resolveOne p.address).filter fun mo => mo.InBounds (accessBytes (widthOf c p.type)) p.address

/-- The value of the place. -/
def valueAt (p : Place) : Option Number :=
  (objectOf c m p).map fun _ =>
    ⟨widthOf c p.type, loadWidth c.littleEndian (widthOf c p.type) m.bytes p.address⟩

/-- The structure that a step from the place leads into: its own, or the one it points to. -/
def enter (p : Place) : Option (Nat × String) :=
  match p.type with
  | .struct name => some (p.address, name)
  | .pointer (.struct name) => (valueAt c m p).map fun v => (v.value, name)
  | _ => none

def fieldPlace (s : Nat × String) (step : FieldStep) : Option Place :=
  (c.structLayout s.2).bind fun layout =>
  layout.elements[step.fieldIndex]?.map fun field =>
    ⟨(field.offset + s.1) % 2 ^ 64, field.type⟩

/-- The field that the steps lead to from within a structure. -/
def locate (s : Nat × String) : FieldStep → List FieldStep → Option Place
  | step, [] => fieldPlace c s step
  | step, step' :: steps =>
    (fieldPlace c s step).bind fun p => (enter c m p).bind fun s' => locate s' step' steps

/-- What an argument points to, or what was allocated for a symbol. -/
def rootPlace : Root → Option Place
  | .arg index =>
    match c.argTypes[index]?, c.arguments[index]? with
    | some (.pointer t), some ⟨64, a⟩ => some ⟨a, t⟩
    | _, _ => none
  | .alloc symbol =>
    match c.symbols symbol with
    | some (t, a) => if a = 0 then none else some ⟨a, match t with | .pointer t => t | t => t⟩
    | none => none

/-- The place that a path names. -/
def place (root : Root) : List FieldStep → Option Place
  | [] => rootPlace c root
  | step :: steps =>
    (rootPlace c root).bind fun p =>
      match p.type with
      | .struct name => locate c m (p.address, name) step steps
      | _ => none

/-- The place that a side is read from; a bare argument is no place. -/
def source : Side → Option Place
  | .path (.arg _) [] => none
  | .path root steps => place c m root steps
  | _ => none

/-- The value of a side: of a field, as wide as its type. -/
def valueOf : Side → Option Number
  | .null => some (createPointer 0)
  | .constant val => if val < 2 ^ 31 then some ⟨64, val⟩ else none
  | .path (.arg index) [] =>
    c.argTypes[index]?.bind fun t =>
      c.arguments[index]?.filter fun v => v.width = widthOf c t
  | .path root steps => (place c m root steps).bind (valueAt c m)

/-- The value is stored at the place, as wide as the type of the place. -/
def assign (p : Place) (v : Number) : Contents :=
  { m with
    bytes := storeWidth c.littleEndian (widthOf c p.type) m.bytes p.address
      (v.value % 2 ^ widthOf c p.type) }

end

/-- So many bytes from the address on are in one object. -/
def InObject (m : Contents) (n a : Nat) : Prop := ∃ mo, m.resolveOne a = some mo ∧ mo.InBounds n a

/-- What is read for a side: a pointer's width at its place, whatever its type. -/
def taken (c : Call) (m : Contents) (rhs : Side) (v : Number) : Number :=
  match source c m rhs with
  | some q => ⟨64, m.bytes.load c.littleEndian 8 q.address⟩
  | none => v

/-- The byte that a number of `n` bytes has at a place of its own. -/
def byteOf (little : Bool) (n v j : Nat) : BitVec 8 :=
  BitVec.ofNat 8 (v >>> (8 * Bytes.lane little n j))

/-- The accesses of a pointer's width stay in their objects, and where they go beyond the fields,
the bytes happen to be what they should be. -/
structure Harmless (c : Call) (m : Contents) (steps : List FieldStep) (rhs : Side) (p : Place)
    (v : Number) : Prop where
  lhsRead : steps ≠ [] → InObject m 8 p.address
  rhsRead : ∀ q, source c m rhs = some q → InObject m 8 q.address
  written : InObject m (accessBytes (taken c m rhs v).width) p.address
  field : ∀ j < accessBytes (widthOf c p.type),
    (if j < accessBytes (taken c m rhs v).width then
        byteOf c.littleEndian (accessBytes (taken c m rhs v).width) (taken c m rhs v).value j
      else m.bytes (p.address + j)) =
      byteOf c.littleEndian (accessBytes (widthOf c p.type)) (v.value % 2 ^ widthOf c p.type) j
  beyond : ∀ j, accessBytes (widthOf c p.type) ≤ j → j < accessBytes (taken c m rhs v).width →
    byteOf c.littleEndian (accessBytes (taken c m rhs v).width) (taken c m rhs v).value j =
      m.bytes (p.address + j)

section
variable {c : Call} {m : Contents} {e : Evaluation} {s s' : Nat × String} {step : FieldStep}
  {p : Place} {mo : ObjectPair}

theorem accessBytes_pointer : accessBytes 64 = 8 := accessBytes_mul (N := 8)

theorem loadWidth_pointer {little : Bool} {m : Bytes} {a : Nat} :
    loadWidth little 64 m a = m.load little 8 a := loadWidth_mul (N := 8)

theorem objectOf_eq_some : objectOf c m p = some mo ↔
    m.resolveOne p.address = some mo ∧ mo.InBounds (accessBytes (widthOf c p.type)) p.address := by
  unfold objectOf
  rw [Option.filter_eq_some_iff]
  simp

/-- The loop is within a structure. -/
structure Within (e : Evaluation) (s : Nat × String) : Prop where
  st : e.st = some s.2
  cur : e.cur = ⟨64, s.1⟩

/-- A round of the loop computes the address of the field. -/
theorem evalStep_eq (he : Within e s) (hp : fieldPlace c s step = some p) (exprParsed : Bool) :
    evalStep c m exprParsed e step =
      match p.type with
      | .pointer _ =>
        (m.resolveOne p.address).bind fun mo =>
          (m.read c.littleEndian mo p.address).map fun value =>
            ⟨structType p.type, value, ⟨64, p.address⟩⟩
      | _ =>
        if exprParsed then
          match m.resolveOne p.address with
          | some mo => (m.read c.littleEndian mo p.address).map fun value =>
              ⟨structType p.type, value, ⟨64, p.address⟩⟩
          | none => some ⟨structType p.type, ⟨64, p.address⟩, e.addressRes⟩
        else some ⟨structType p.type, ⟨64, p.address⟩, e.addressRes⟩ := by
  unfold fieldPlace at hp
  obtain ⟨layout, hlayout, hp⟩ := Option.bind_eq_some_iff.mp hp
  obtain ⟨field, hfield, rfl⟩ := Option.map_eq_some_iff.mp hp
  unfold evalStep
  rewrite [he.st, Option.bind_some, hlayout, Option.bind_some, hfield, Option.bind_some, he.cur,
    if_pos rfl]
  obtain ⟨type, offset⟩ := field
  cases type with
  | _ => rfl

/-- A field on the way: the loop gets into the structure that the field leads into. -/
theorem evalStep_enter (he : Within e s) (hp : fieldPlace c s step = some p)
    (hs : enter c m p = some s') :
    ∃ e', evalStep c m false e step = some e' ∧ Within e' s' := by
  rw [evalStep_eq he hp]
  unfold enter at hs
  cases ht : p.type with
  | struct name =>
    rw [ht] at hs
    cases hs
    exact ⟨_, rfl, rfl, rfl⟩
  | pointer elem =>
    rw [ht] at hs
    cases elem with
    | struct name =>
      obtain ⟨v, hv, rfl⟩ := Option.map_eq_some_iff.mp hs
      obtain ⟨mo, hmo, rfl⟩ := Option.map_eq_some_iff.mp hv
      obtain ⟨hresolve, hin⟩ := objectOf_eq_some.mp hmo
      rw [ht, widthOf, accessBytes_pointer] at hin
      have hread : m.read c.littleEndian mo p.address =
          some ⟨64, m.bytes.load c.littleEndian 8 p.address⟩ := if_pos hin
      refine ⟨⟨some name, ⟨64, m.bytes.load c.littleEndian 8 p.address⟩, ⟨64, p.address⟩⟩, ?_,
        rfl, ?_⟩
      · dsimp only
        rw [hresolve, Option.bind_some, hread]
        rfl
      · rw [ht, widthOf, loadWidth_pointer]
    | _ => contradiction
  | _ =>
    rw [ht] at hs
    contradiction

/-- The last field is read with the width of pointers, and its address is kept. -/
theorem evalStep_last (he : Within e s) (hp : fieldPlace c s step = some p)
    (hmo : m.resolveOne p.address = some mo) :
    evalStep c m true e step =
      if mo.InBounds 8 p.address then
        some ⟨structType p.type, ⟨64, m.bytes.load c.littleEndian 8 p.address⟩, ⟨64, p.address⟩⟩
      else none := by
  rw [evalStep_eq he hp, hmo]
  have hread : (m.read c.littleEndian mo p.address).map (fun value =>
      (⟨structType p.type, value, ⟨64, p.address⟩⟩ : Evaluation)) =
      if mo.InBounds 8 p.address then
        some ⟨structType p.type, ⟨64, m.bytes.load c.littleEndian 8 p.address⟩, ⟨64, p.address⟩⟩
      else none := by
    unfold Contents.read
    split
    · rfl
    · rfl
  cases ht : p.type with
  | pointer elem =>
    rw [ht] at hread
    exact hread
  | _ =>
    rw [ht] at hread
    exact hread

/-- The loop ends at the field that the path names. -/
theorem evalSteps_eq {steps : List FieldStep} (he : Within e s)
    (hp : locate c m s step steps = some p) (hmo : m.resolveOne p.address = some mo) :
    evalSteps c m e (step :: steps) =
      if mo.InBounds 8 p.address then
        some ⟨structType p.type, ⟨64, m.bytes.load c.littleEndian 8 p.address⟩, ⟨64, p.address⟩⟩
      else none := by
  induction steps generalizing e s step with
  | nil =>
    rw [evalSteps, List.isEmpty_nil, evalStep_last he hp hmo]
    split
    · rfl
    · rfl
  | cons step' steps ih =>
    unfold locate at hp
    obtain ⟨q, hq, hp⟩ := Option.bind_eq_some_iff.mp hp
    obtain ⟨s', hs', hp⟩ := Option.bind_eq_some_iff.mp hp
    obtain ⟨e', hstep, he'⟩ := evalStep_enter (m := m) he hq hs'
    rw [evalSteps, List.isEmpty_cons, hstep, Option.bind_some]
    exact ih he' hp

variable {root : Root} {steps : List FieldStep} {rhs : Side} {v : Number}

theorem inObject_iff (hmo : m.resolveOne p.address = some mo) {n : Nat} :
    InObject m n p.address ↔ mo.InBounds n p.address := by
  constructor
  · intro h
    obtain ⟨mo', hmo', hin⟩ := h
    rw [hmo] at hmo'
    cases hmo'
    exact hin
  · intro h
    exact ⟨mo, hmo, h⟩

theorem rootPlace_arg {index : Nat} (h : rootPlace c (.arg index) = some p) :
    c.argTypes[index]? = some (.pointer p.type) ∧ c.arguments[index]? = some ⟨64, p.address⟩ := by
  unfold rootPlace at h
  dsimp only at h
  split at h
  · rename_i t a htype harg
    cases h
    exact ⟨htype, harg⟩
  · contradiction

theorem rootPlace_alloc {symbol : String} (h : rootPlace c (.alloc symbol) = some p) :
    ∃ t, c.symbols symbol = some (t, p.address) ∧ p.address ≠ 0 ∧
      (t = p.type ∨ t = .pointer p.type) := by
  unfold rootPlace at h
  dsimp only at h
  split at h
  · rename_i t a hsymbol
    split at h
    · contradiction
    · rename_i ha
      cases h
      refine ⟨t, hsymbol, ha, ?_⟩
      cases t with
      | pointer t => exact .inr rfl
      | _ => exact .inl rfl
  · contradiction

/-- The loop begins within the structure of the root. -/
theorem evalSteps_place {t : CType} (hp : place c m root (step :: steps) = some p)
    (hmo : m.resolveOne p.address = some mo) {q : Place} (hq : rootPlace c root = some q)
    (ht : t = q.type ∨ t = .pointer q.type) :
    evalSteps c m ⟨structType t, ⟨64, q.address⟩, ⟨64, q.address⟩⟩ (step :: steps) =
      if mo.InBounds 8 p.address then
        some ⟨structType p.type, ⟨64, m.bytes.load c.littleEndian 8 p.address⟩, ⟨64, p.address⟩⟩
      else none := by
  unfold place at hp
  dsimp only at hp
  rw [hq, Option.bind_some] at hp
  split at hp
  · rename_i name hname
    refine evalSteps_eq (s := (q.address, name)) ⟨?_, rfl⟩ hp hmo
    rw [hname] at ht
    rcases ht with rfl | rfl
    · rfl
    · rfl
  · contradiction

/-- What `eval` says of a path of some steps. -/
theorem eval_steps (hp : place c m root (step :: steps) = some p)
    (hmo : m.resolveOne p.address = some mo) (address : Bool) :
    eval c m (.path root (step :: steps)) address =
      if mo.InBounds 8 p.address then
        some (if address then ⟨64, p.address⟩
          else ⟨64, m.bytes.load c.littleEndian 8 p.address⟩)
      else none := by
  obtain ⟨q, hq, _⟩ := Option.bind_eq_some_iff.mp hp
  cases root with
  | arg index =>
    obtain ⟨htype, harg⟩ := rootPlace_arg hq
    unfold eval
    dsimp only
    rw [htype, Option.bind_some, harg, Option.bind_some, evalSteps_place hp hmo hq (.inr rfl)]
    by_cases hin : mo.InBounds 8 p.address
    · rw [if_pos hin, if_pos hin]
      rfl
    · rw [if_neg hin, if_neg hin]
      rfl
  | alloc symbol =>
    obtain ⟨t, hsymbol, hne, ht⟩ := rootPlace_alloc hq
    unfold eval
    dsimp only
    rw [hsymbol]
    dsimp only
    rw [if_neg hne, evalSteps_place hp hmo hq ht]
    split
    · cases address with
      | true => rfl
      | false => rfl
    · rfl

/-- The address of the left side. -/
theorem eval_address (hp : place c m root steps = some p)
    (hmo : m.resolveOne p.address = some mo) :
    eval c m (.path root steps) true =
      if steps = [] ∨ mo.InBounds 8 p.address then some ⟨64, p.address⟩ else none := by
  cases steps with
  | cons step steps =>
    rw [eval_steps hp hmo]
    simp
  | nil =>
    rw [if_pos (.inl rfl)]
    cases root with
    | arg index =>
      obtain ⟨htype, harg⟩ := rootPlace_arg hp
      unfold eval
      dsimp only
      rw [htype, Option.bind_some, harg]
      rfl
    | alloc symbol =>
      obtain ⟨t, hsymbol, hne, _⟩ := rootPlace_alloc hp
      unfold eval
      dsimp only
      rw [hsymbol]
      dsimp only
      rw [if_neg hne]
      rfl

theorem objectOf_of_valueAt (h : valueAt c m p = some v) : ∃ mo, objectOf c m p = some mo := by
  obtain ⟨mo, hmo, _⟩ := Option.map_eq_some_iff.mp h
  exact ⟨mo, hmo⟩

/-- The value of a path that is a place: what is read there with the width of pointers. -/
theorem eval_source (hp : place c m root steps = some p)
    (hroot : ∀ index, root = .arg index → steps ≠ [])
    (hmo : m.resolveOne p.address = some mo) :
    eval c m (.path root steps) false =
      if mo.InBounds 8 p.address then some ⟨64, m.bytes.load c.littleEndian 8 p.address⟩
      else none := by
  cases steps with
  | cons step steps => exact eval_steps hp hmo false
  | nil =>
    cases root with
    | arg index => exact absurd rfl (hroot index rfl)
    | alloc symbol =>
      obtain ⟨t, hsymbol, hne, _⟩ := rootPlace_alloc hp
      unfold eval
      dsimp only
      rw [hsymbol]
      dsimp only
      rw [if_neg hne, evalSteps, Option.bind_some, if_neg (by decide), List.isEmpty_nil, if_pos rfl]
      dsimp only
      rw [hmo]
      rfl

/-- The value of the right side: as it is, or as it is read with the width of pointers. -/
theorem eval_value (hv : valueOf c m rhs = some v) :
    (source c m rhs = none ∧ eval c m rhs false = some v) ∨
      ∃ q mo, source c m rhs = some q ∧ m.resolveOne q.address = some mo ∧
        eval c m rhs false =
          if mo.InBounds 8 q.address then some ⟨64, m.bytes.load c.littleEndian 8 q.address⟩
          else none := by
  have hplace : ∀ root steps, (∀ index, root = Root.arg index → steps ≠ []) →
      (place c m root steps).bind (valueAt c m) = some v →
      ∃ q mo, place c m root steps = some q ∧ m.resolveOne q.address = some mo ∧
        eval c m (.path root steps) false =
          if mo.InBounds 8 q.address then some ⟨64, m.bytes.load c.littleEndian 8 q.address⟩
          else none := by
    intro root steps hroot h
    obtain ⟨q, hq, h⟩ := Option.bind_eq_some_iff.mp h
    obtain ⟨mo, hmo⟩ := objectOf_of_valueAt h
    have hresolve := (objectOf_eq_some.mp hmo).1
    exact ⟨q, mo, hq, hresolve, eval_source hq hroot hresolve⟩
  cases rhs with
  | null => exact .inl ⟨rfl, hv⟩
  | constant val => exact .inl ⟨rfl, hv⟩
  | path root steps =>
    cases root with
    | alloc symbol =>
      refine .inr (hplace (.alloc symbol) steps (by simp) ?_)
      cases steps with
      | nil => exact hv
      | cons step steps => exact hv
    | arg index =>
      cases steps with
      | cons step steps => exact .inr (hplace (.arg index) (step :: steps) (by simp) hv)
      | nil =>
        refine .inl ⟨rfl, ?_⟩
        obtain ⟨t, ht, hv⟩ := Option.bind_eq_some_iff.mp hv
        obtain ⟨hv, _⟩ := Option.filter_eq_some_iff.mp hv
        unfold eval
        dsimp only
        rw [ht, Option.bind_some, hv]
        rfl

/-- The bytes that two stores at one address leave are the same. -/
theorem storeWidth_eq_iff {little : Bool} {w w' : Width} {b : Bytes} {a x y : Nat} :
    storeWidth little w b a x = storeWidth little w' b a y ↔
      (∀ j < accessBytes w', (if j < accessBytes w then byteOf little (accessBytes w) x j
          else b (a + j)) = byteOf little (accessBytes w') y j) ∧
        ∀ j, accessBytes w' ≤ j → j < accessBytes w →
          byteOf little (accessBytes w) x j = b (a + j) := by
  have hbyte : ∀ (w : Width) (x j : Nat), storeWidth little w b a x (a + j) =
      if j < accessBytes w then byteOf little (accessBytes w) x j else b (a + j) := by
    intro w x j
    unfold storeWidth Bytes.store byteOf
    rw [Nat.add_sub_cancel_left]
    refine if_congr ?_ rfl rfl
    omega
  constructor
  · intro h
    have hj := fun j => congrFun h (a + j)
    simp only [hbyte] at hj
    refine ⟨fun j hlt => ?_, fun j hle hlt => ?_⟩
    · rw [hj, if_pos hlt]
    · have hj := hj j
      rwa [if_pos hlt, if_neg (by omega)] at hj
  · intro h
    obtain ⟨hfield, hbeyond⟩ := h
    funext i
    by_cases hi : a ≤ i
    · obtain ⟨j, rfl⟩ := Nat.exists_eq_add_of_le hi
      rw [hbyte, hbyte]
      by_cases hlt : j < accessBytes w'
      · rw [hfield j hlt, if_pos hlt]
      · rw [if_neg hlt]
        split
        · rename_i hlt'
          exact hbeyond j (by omega) hlt'
        · rfl
    · unfold storeWidth Bytes.store
      rw [if_neg (by omega), if_neg (by omega)]

theorem widthOf_access (t : CType) : widthOf c t = 1 ∨ widthOf c t % 8 = 0 := by
  cases t with
  | bool => exact .inl rfl
  | scalar bytes => exact .inr (Nat.mul_mod_left bytes 8)
  | pointer elem => exact .inr (Nat.mul_mod_left 8 8)
  | struct name => exact .inr (Nat.mul_mod_left _ 8)

theorem valueAt_access {q : Place} (h : valueAt c m q = some v) :
    v.width = 1 ∨ v.width % 8 = 0 := by
  obtain ⟨_, _, rfl⟩ := Option.map_eq_some_iff.mp h
  exact widthOf_access q.type

theorem valueOf_access (hv : valueOf c m rhs = some v) : v.width = 1 ∨ v.width % 8 = 0 := by
  unfold valueOf at hv
  split at hv
  · cases hv
    exact .inr rfl
  · split at hv
    · cases hv
      exact .inr (Nat.mul_mod_left 8 8)
    · contradiction
  · obtain ⟨t, _, hv⟩ := Option.bind_eq_some_iff.mp hv
    rw [of_decide_eq_true (Option.filter_eq_some_iff.mp hv).2]
    exact widthOf_access t
  · obtain ⟨q, _, hv⟩ := Option.bind_eq_some_iff.mp hv
    exact valueAt_access hv

/-- What is written has a width that can be written. -/
theorem taken_access (hv : valueOf c m rhs = some v) :
    (taken c m rhs v).width = 1 ∨ (taken c m rhs v).width % 8 = 0 := by
  unfold taken
  split
  · exact .inr (Nat.mul_mod_left 8 8)
  · exact valueOf_access hv

/-- The value that is written, where its read is in the object. -/
theorem eval_taken (hv : valueOf c m rhs = some v) :
    eval c m rhs false = some (taken c m rhs v) ∧
        (∀ q, source c m rhs = some q → InObject m 8 q.address) ∨
      eval c m rhs false = none ∧ ¬ ∀ q, source c m rhs = some q → InObject m 8 q.address := by
  rcases eval_value hv with ⟨hsource, heval⟩ | ⟨q, mo', hsource, hq, heval⟩
  · refine .inl ⟨?_, ?_⟩
    · rw [taken, hsource]
      exact heval
    · rw [hsource]
      nofun
  · by_cases hread : mo'.InBounds 8 q.address
    · rw [if_pos hread] at heval
      refine .inl ⟨?_, ?_⟩
      · rw [taken, hsource]
        exact heval
      · intro q' hq'
        rw [hsource] at hq'
        cases hq'
        exact ⟨mo', hq, hread⟩
    · rw [if_neg hread] at heval
      refine .inr ⟨heval, fun h => hread ?_⟩
      exact (inObject_iff hq).mp (h q hsource)

/-- The assignment is right exactly where its accesses of the wrong width are harmless. -/
theorem interpret_assigns_iff (hp : place c m root steps = some p)
    (hmo : objectOf c m p = some mo) (hwrite : mo.readOnly = false)
    (hv : valueOf c m rhs = some v) :
    interpret c m (.path root steps) rhs = some (assign c m p v) ↔
      Harmless c m steps rhs p v := by
  have hresolve := (objectOf_eq_some.mp hmo).1
  have hvalue := eval_taken hv
  have hwritten := @inObject_iff m p mo hresolve
  unfold interpret
  rw [eval_address hp hresolve]
  by_cases hlhs : steps = [] ∨ mo.InBounds 8 p.address
  · rw [if_pos hlhs, Option.bind_some]
    rcases hvalue with ⟨heval, hrhs⟩ | ⟨heval, hrhs⟩
    · rw [heval, Option.bind_some, if_pos rfl]
      dsimp only
      rw [hresolve]
      dsimp only
      unfold Contents.write
      rw [hwrite, if_neg (by decide), if_pos (taken_access hv)]
      split
      · rename_i hin'
        unfold assign
        rw [Option.some_inj, Contents.mk.injEq, storeWidth_eq_iff]
        constructor
        · intro h
          exact ⟨fun hne => hwritten.mpr (hlhs.resolve_left hne), hrhs, hwritten.mpr hin',
            h.2.1, h.2.2⟩
        · intro h
          exact ⟨rfl, h.field, h.beyond⟩
      · rename_i hin'
        refine iff_of_false (by simp) fun h => hin' ?_
        exact hwritten.mp h.written
    · rw [heval]
      exact iff_of_false (by simp) fun h => hrhs h.rhsRead
  · rw [if_neg hlhs]
    refine iff_of_false (by simp) fun h => hlhs ?_
    by_cases hnil : steps = []
    · exact .inl hnil
    · exact .inr (hwritten.mp (h.lhsRead hnil))

/-- Nothing is changed outside the field. -/
theorem assign_elsewhere {a : Nat}
    (ha : a < p.address ∨ p.address + accessBytes (widthOf c p.type) ≤ a) :
    (assign c m p v).bytes a = m.bytes a := by
  unfold assign storeWidth Bytes.store
  exact if_neg (by omega)

theorem valueAt_of_source {q : Place} (hq : source c m rhs = some q)
    (hv : valueOf c m rhs = some v) : valueAt c m q = some v := by
  unfold valueOf at hv
  unfold source at hq
  split at hv
  · contradiction
  · contradiction
  · contradiction
  · rename_i hpath
    split at hq
    · contradiction
    · rename_i heq
      cases heq
      rw [hq] at hv
      exact hv
    · contradiction

/-- The byte does not depend on what does not fit. -/
theorem byteOf_mod {little : Bool} {n x j : Nat} (hj : j < n) :
    byteOf little n (x % 2 ^ (8 * n)) j = byteOf little n x j := by
  unfold byteOf
  have hlane : Bytes.lane little n j < n := Bytes.lane_lt hj
  refine BitVec.eq_of_getLsbD_eq fun i hi => ?_
  rw [BitVec.getLsbD_ofNat, BitVec.getLsbD_ofNat, Nat.testBit_shiftRight, Nat.testBit_shiftRight,
    Nat.testBit_mod_two_pow, decide_eq_true (show 8 * Bytes.lane little n j + i < 8 * n by omega),
    Bool.true_and]

/-- Between fields of the width of pointers the assignment is right. -/
theorem harmless_of_pointer_width (hmo : objectOf c m p = some mo)
    (hv : valueOf c m rhs = some v) (hp : widthOf c p.type = 64) (hw : v.width = 64) :
    Harmless c m steps rhs p v := by
  have hobject : ∀ {q mo}, objectOf c m q = some mo → widthOf c q.type = 64 →
      InObject m 8 q.address := by
    intro q mo h hwidth
    obtain ⟨hresolve, hin⟩ := objectOf_eq_some.mp h
    rw [hwidth, accessBytes_pointer] at hin
    exact ⟨mo, hresolve, hin⟩
  have hsource : ∀ q, source c m rhs = some q → objectOf c m q ≠ none ∧ widthOf c q.type = 64 ∧
      v = ⟨64, m.bytes.load c.littleEndian 8 q.address⟩ := by
    intro q hq
    obtain ⟨mo', hmo', rfl⟩ := Option.map_eq_some_iff.mp (valueAt_of_source hq hv)
    dsimp only at hw
    rw [hw, loadWidth_pointer, hmo']
    exact ⟨by simp, rfl, rfl⟩
  have htaken : taken c m rhs v = v := by
    unfold taken
    split
    · rename_i q hq
      exact (hsource q hq).2.2.symm
    · rfl
  have hlhs := hobject hmo hp
  refine ⟨fun _ => hlhs, ?_, ?_, ?_, ?_⟩
  · intro q hq
    obtain ⟨hsome, hwidth, _⟩ := hsource q hq
    obtain ⟨mo', hmo'⟩ := Option.ne_none_iff_exists'.mp hsome
    exact hobject hmo' hwidth
  · rw [htaken, hw, accessBytes_pointer]
    exact hlhs
  · rw [htaken, hw, hp, accessBytes_pointer]
    intro j hj
    rw [if_pos hj]
    exact (byteOf_mod hj).symm
  · rw [htaken, hw, hp, accessBytes_pointer]
    intro j hle hlt
    omega

end

/-- A list node of a pointer and two counters, and two nodes whose bytes are ones. -/
def nodes : Call where
  littleEndian := true
  structLayout name :=
    if name = "node" then
      some ⟨[⟨.pointer (.struct "node"), 0⟩, ⟨.scalar 4, 8⟩, ⟨.scalar 4, 12⟩], 16⟩
    else none
  argTypes := [.pointer (.struct "node"), .pointer (.struct "node")]
  arguments := [⟨64, 4096⟩, ⟨64, 8192⟩]
  symbols _ := none

def nodeContents : Contents where
  objects := [⟨4096, 16, false⟩, ⟨8192, 16, false⟩]
  bytes _ := 1

theorem nodes_object : objectOf nodes nodeContents ⟨4096, .pointer (.struct "node")⟩ =
    some ⟨4096, 16, false⟩ := by decide

/-- `arg0->0=arg1` links the nodes. -/
theorem nodes_linked :
    interpret nodes nodeContents (.path (.arg 0) [.arrow 0]) (.path (.arg 1) []) =
      some (assign nodes nodeContents ⟨4096, .pointer (.struct "node")⟩ ⟨64, 8192⟩) :=
  (interpret_assigns_iff (by decide) nodes_object rfl (by decide)).mpr
    (harmless_of_pointer_width nodes_object (by decide) rfl rfl)

/-- `arg0->1=7` overwrites the counter behind. -/
theorem nodes_counted :
    interpret nodes nodeContents (.path (.arg 0) [.arrow 1]) (.constant 7) ≠
      some (assign nodes nodeContents ⟨4104, .scalar 4⟩ ⟨64, 7⟩) := by
  intro h
  have hbytes : ((interpret nodes nodeContents (.path (.arg 0) [.arrow 1]) (.constant 7)).map
      fun m => m.bytes 4108) = some 0 := by decide
  rw [h, Option.map_some, assign_elsewhere (.inr (by decide))] at hbytes
  revert hbytes
  decide

end Encider.SideEffect
