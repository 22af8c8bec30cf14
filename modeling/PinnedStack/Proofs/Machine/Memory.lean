import Mathlib.Algebra.Group.Int.Defs
import Mathlib.Algebra.Group.Nat.Defs

/-!
# Memory

* `Word`, `Byte`, `Memory` — 64-bit words, and a byte at every address. Addresses wrap around.
* `Memory.load`, `Memory.store` — words in memory, their lowest byte first.
* `Memory.load_store_same`, `Memory.load_store_apart` — what a store changes.
* `Memory.Lie` — words that lie in memory one after the other.
-/

namespace PinnedStack.Asm

abbrev Word := BitVec 64
abbrev Byte := BitVec 8

/-- A byte at every address. -/
abbrev Memory := Word → Byte

theorem toNat_add_ofNat {a : Word} {n : Nat} (h : a.toNat + n < 2 ^ 64) :
    (a + BitVec.ofNat 64 n).toNat = a.toNat + n := by
  rw [BitVec.toNat_add, BitVec.toNat_ofNat]
  omega

theorem toNat_sub_ofNat {a : Word} {n : Nat} (h : n ≤ a.toNat) :
    (a - BitVec.ofNat 64 n).toNat = a.toNat - n := by
  have := a.isLt
  rw [BitVec.toNat_sub, BitVec.toNat_ofNat]
  omega

theorem eq_of_toNat_eq {a : Word} {n : Nat} (h : a.toNat = n) : a = BitVec.ofNat 64 n := by
  apply BitVec.eq_of_toNat_eq
  have := a.isLt
  rw [BitVec.toNat_ofNat]
  omega

namespace Memory

/-- The number in the bytes from an address on. -/
def number (m : Memory) (a : Word) : Nat → Nat
  | 0 => 0
  | n + 1 => (m a).toNat + 256 * number m (a + 1) n

def load (m : Memory) (a : Word) : Word := BitVec.ofNat 64 (m.number a 8)

def store (m : Memory) (a w : Word) : Memory := fun x =>
  if (x - a).toNat < 8 then BitVec.ofNat 8 (w.toNat / 256 ^ (x - a).toNat) else m x

def storeByte (m : Memory) (a : Word) (b : Byte) : Memory := fun x => if x = a then b else m x

theorem number_congr {m m' : Memory} {a : Word} {n : Nat}
    (h : ∀ i < n, m (a + BitVec.ofNat 64 i) = m' (a + BitVec.ofNat 64 i)) :
    m.number a n = m'.number a n := by
  induction n generalizing a with
  | zero => rfl
  | succ n ih =>
    have first : m a = m' a := by simpa using h 0 (Nat.succ_pos n)
    have rest : m.number (a + 1) n = m'.number (a + 1) n := by
      refine ih fun i lt => ?_
      have next := h (i + 1) (Nat.succ_lt_succ lt)
      rw [BitVec.ofNat_add, BitVec.add_comm (BitVec.ofNat 64 i), ← BitVec.add_assoc] at next
      exact next
    rw [number, number, first, rest]

theorem load_congr {m m' : Memory} {a : Word}
    (h : ∀ i < 8, m (a + BitVec.ofNat 64 i) = m' (a + BitVec.ofNat 64 i)) :
    m.load a = m'.load a := by
  rw [load, load, number_congr h]

theorem number_store {m : Memory} {a w : Word} {i n : Nat} (h : i + n ≤ 8) :
    (m.store a w).number (a + BitVec.ofNat 64 i) n = w.toNat / 256 ^ i % 256 ^ n := by
  induction n generalizing i with
  | zero => simp [number, Nat.mod_one]
  | succ n ih =>
    have offset : (a + BitVec.ofNat 64 i - a).toNat = i := by
      rw [BitVec.toNat_sub, BitVec.toNat_add, BitVec.toNat_ofNat]
      have := a.isLt
      omega
    have byte : (m.store a w (a + BitVec.ofNat 64 i)).toNat = w.toNat / 256 ^ i % 256 := by
      rw [store, offset, if_pos (by omega), BitVec.toNat_ofNat]
    have next : a + BitVec.ofNat 64 i + 1 = a + BitVec.ofNat 64 (i + 1) := by
      rw [BitVec.ofNat_add, ← BitVec.add_assoc]
      rfl
    rw [number, byte, next, ih (by omega), Nat.pow_succ 256 i, ← Nat.div_div_eq_div_mul,
      Nat.pow_succ', Nat.mod_mul]

@[simp] theorem load_store_same (m : Memory) (a w : Word) : (m.store a w).load a = w := by
  have whole := number_store (m := m) (a := a) (w := w) (i := 0) (n := 8) (Nat.le_refl 8)
  have lt := w.isLt
  have zero : a + BitVec.ofNat 64 0 = a := by simp
  rw [zero] at whole
  rw [load, whole]
  apply BitVec.eq_of_toNat_eq
  rw [BitVec.toNat_ofNat]
  omega

theorem store_of_apart {m : Memory} {a w x : Word} (h : 8 ≤ (x - a).toNat) :
    m.store a w x = m x := by
  rw [store, if_neg (by omega)]

/-- A store leaves the addresses below it alone, unless it wraps around. -/
theorem store_of_lt {m : Memory} {a w x : Word} (low : 8 ≤ x.toNat) (lt : x.toNat < a.toNat) :
    m.store a w x = m x := by
  refine store_of_apart ?_
  have := a.isLt
  rw [BitVec.toNat_sub]
  omega

theorem store_of_ge {m : Memory} {a w x : Word} (ge : a.toNat + 8 ≤ x.toNat) :
    m.store a w x = m x := by
  refine store_of_apart ?_
  have := x.isLt
  rw [BitVec.toNat_sub]
  omega

/-- A store that does not wrap around leaves all other addresses alone. -/
theorem store_of_outside {m : Memory} {a w x : Word} (fits : a.toNat + 8 ≤ 2 ^ 64)
    (outside : x.toNat < a.toNat ∨ a.toNat + 8 ≤ x.toNat) : m.store a w x = m x := by
  refine store_of_apart ?_
  have := x.isLt
  rw [BitVec.toNat_sub]
  omega

/-- A store leaves the words that do not overlap it alone. -/
theorem load_store_apart {m : Memory} {a b w : Word} (fits : b.toNat + 8 ≤ 2 ^ 64)
    (apart : a.toNat + 8 ≤ b.toNat ∨ (8 ≤ b.toNat ∧ b.toNat + 8 ≤ a.toNat)) :
    (m.store a w).load b = m.load b := by
  refine load_congr fun i lt => ?_
  have here : (b + BitVec.ofNat 64 i).toNat = b.toNat + i := toNat_add_ofNat (by omega)
  rcases apart with above | ⟨low, below⟩
  · exact store_of_ge (by omega)
  · exact store_of_lt (by omega) (by omega)

/-! ## Words in a row -/

/-- Words lie in memory one after the other, from an address on. -/
def Lie (m : Memory) : Nat → List Word → Prop
  | _, [] => True
  | a, w :: ws => m.load (BitVec.ofNat 64 a) = w ∧ Lie m (a + 8) ws

theorem lie_append {m : Memory} {a : Nat} {ws vs : List Word} :
    m.Lie a (ws ++ vs) ↔ m.Lie a ws ∧ m.Lie (a + 8 * ws.length) vs := by
  induction ws generalizing a with
  | nil => simp [Lie]
  | cons w ws ih =>
    have next : a + 8 + 8 * ws.length = a + 8 * (w :: ws).length := by
      rw [List.length_cons]
      omega
    simp only [List.cons_append, Lie, ih, and_assoc, next]

theorem Lie.congr {m m' : Memory} {a : Nat} {ws : List Word} (lie : m.Lie a ws)
    (fits : a + 8 * ws.length ≤ 2 ^ 64)
    (same : ∀ x : Word, a ≤ x.toNat → x.toNat < a + 8 * ws.length → m' x = m x) : m'.Lie a ws := by
  induction ws generalizing a with
  | nil => trivial
  | cons w ws ih =>
    obtain ⟨first, rest⟩ := lie
    rw [List.length_cons] at fits same
    refine ⟨?_, ih rest (by omega) fun x low high => same x (by omega) (by omega)⟩
    rw [← first]
    refine load_congr fun i lt => ?_
    have here : (BitVec.ofNat 64 a + BitVec.ofNat 64 i).toNat = a + i := by
      rw [← BitVec.ofNat_add, BitVec.toNat_ofNat, Nat.mod_eq_of_lt (by omega)]
    exact same _ (by omega) (by omega)

theorem storeByte_of_ne {m : Memory} {a x : Word} {b : Byte} (ne : x ≠ a) :
    m.storeByte a b x = m x := if_neg ne

end Memory

end PinnedStack.Asm
