import Mathlib

/-! Readers of files of bytes, and the bytes that make a reader return a value. -/

namespace Encider

/-- A reader takes bytes from the front of a file; it gives `none` where it fails. -/
abbrev Reader := StateT (List UInt8) Option

namespace Reader

/-- The next bytes, where there are so many. -/
def take (n : Nat) : Reader (List UInt8) := fun input =>
  if input.length < n then none else some (input.take n, input.drop n)

/-- One value after the other. -/
def count {α : Type} (p : Reader α) : Nat → Reader (List α)
  | 0 => return []
  | n + 1 => do
    let x ← p
    let xs ← count p n
    return x :: xs

/-- From these bytes and any others after them the reader takes just these. -/
def Reads {α : Type} (p : Reader α) (bytes : List UInt8) (x : α) : Prop :=
  ∀ rest, p (bytes ++ rest) = some (x, rest)

variable {α β : Type} {p : Reader α} {q : α → Reader β} {bytes bytes' : List UInt8} {x : α} {y : β}

theorem bind_apply (p : Reader α) (q : α → Reader β) (input : List UInt8) :
    (p >>= q) input = (p input).bind fun r => q r.1 r.2 := rfl

theorem map_apply (p : Reader α) (f : α → β) (input : List UInt8) :
    (p >>= fun x => pure (f x)) input = (p input).map fun r => (f r.1, r.2) := by
  rw [bind_apply]
  cases p input <;> rfl

theorem Reads.pure (x : α) : Reads (pure x) [] x := fun _ => rfl

theorem Reads.bind (hp : Reads p bytes x) (hq : Reads (q x) bytes' y) :
    Reads (p >>= q) (bytes ++ bytes') y := by
  intro rest
  rw [bind_apply, List.append_assoc, hp]
  exact hq rest

/-- The last reader of a block. -/
theorem Reads.last (hp : Reads p bytes x) (f : α → β) :
    Reads (p >>= fun x => Pure.pure (f x)) bytes (f x) := by
  intro rest
  rw [map_apply, hp, Option.map_some]

theorem reads_take (bytes : List UInt8) : Reads (take bytes.length) bytes bytes := by
  intro rest
  simp [take]

/-- What follows a reader that has read its bytes. -/
theorem Reads.run (hp : Reads p bytes x) (q : α → Reader β) (rest : List UInt8) :
    (p >>= q) (bytes ++ rest) = q x rest := by
  rw [bind_apply, hp, Option.bind_some]

section
variable {γ : Type} {encode : γ → List UInt8} {value : γ → α} {cs : List γ}

theorem Reads.count (h : ∀ c ∈ cs, Reads p (encode c) (value c)) :
    Reads (count p cs.length) (cs.flatMap encode) (cs.map value) := by
  induction cs with
  | nil => exact Reads.pure []
  | cons c cs ih =>
    rw [List.forall_mem_cons] at h
    rw [List.flatMap_cons, List.map_cons]
    exact h.1.bind ((ih h.2).last _)

/-- A file that ends before the last value. -/
theorem count_eq_none {n : Nat} (h : ∀ c ∈ cs, Reads p (encode c) (value c)) (hp : p [] = none)
    (hn : cs.length < n) : Reader.count p n (cs.flatMap encode) = none := by
  induction cs generalizing n with
  | nil =>
    obtain ⟨n, rfl⟩ := Nat.exists_eq_add_one.mpr hn
    rw [Reader.count, bind_apply, List.flatMap_nil, hp, Option.bind_none]
  | cons c cs ih =>
    rw [List.forall_mem_cons] at h
    obtain ⟨n, rfl⟩ := Nat.exists_eq_add_one.mpr (Nat.zero_lt_of_lt hn)
    rw [Reader.count, List.flatMap_cons, h.1.run, map_apply, ih h.2 (Nat.lt_of_succ_lt_succ hn),
      Option.map_none]

end

/-! Words of four bytes in either order. -/

/-- The bytes of a word, the most significant first. -/
def bigEndian (v : UInt32) : List UInt8 :=
  [(v >>> 24).toUInt8, (v >>> 16).toUInt8, (v >>> 8).toUInt8, v.toUInt8]

def littleEndian (v : UInt32) : List UInt8 := (bigEndian v).reverse

def word (b₃ b₂ b₁ b₀ : UInt8) : UInt32 :=
  ((((b₃.toUInt32 <<< 8) + b₂.toUInt32) <<< 8) + b₁.toUInt32) <<< 8 + b₀.toUInt32

theorem word_bytes (v : UInt32) :
    word (v >>> 24).toUInt8 (v >>> 16).toUInt8 (v >>> 8).toUInt8 v.toUInt8 = v := by
  apply UInt32.toNat_inj.mp
  have hv := v.toNat_lt
  simp [word, Nat.shiftRight_eq_div_pow, Nat.shiftLeft_eq]
  omega

theorem bigEndian_word (b₃ b₂ b₁ b₀ : UInt8) : bigEndian (word b₃ b₂ b₁ b₀) = [b₃, b₂, b₁, b₀] := by
  have h3 := b₃.toNat_lt
  have h2 := b₂.toNat_lt
  have h1 := b₁.toNat_lt
  have h0 := b₀.toNat_lt
  simp only [bigEndian, List.cons.injEq, and_true, ← UInt8.toNat_inj]
  simp [word, Nat.shiftRight_eq_div_pow, Nat.shiftLeft_eq]
  omega

/-- The word in the next four bytes, the most significant first. -/
def readBig : Reader UInt32
  | b₃ :: b₂ :: b₁ :: b₀ :: rest => some (word b₃ b₂ b₁ b₀, rest)
  | _ => none

def readLittle : Reader UInt32
  | b₀ :: b₁ :: b₂ :: b₃ :: rest => some (word b₃ b₂ b₁ b₀, rest)
  | _ => none

theorem reads_readBig (v : UInt32) : Reads readBig (bigEndian v) v := by
  intro rest
  simp [bigEndian, readBig, word_bytes]

theorem reads_readLittle (v : UInt32) : Reads readLittle (littleEndian v) v := by
  intro rest
  simp [littleEndian, bigEndian, readLittle, word_bytes]

end Reader

end Encider
