import Mathlib.Algebra.Order.Group.Nat
import Mathlib.Tactic.Ring

/-!
# Numbers in memory

A number of `w` bytes lies in memory with its low byte first or with its high
byte first. `memory` is what lies there and `value` reads it back.
-/

/-- Which byte of a number lies first. -/
inductive ByteOrder where
  | little
  | big
  deriving DecidableEq, Repr

namespace ByteOrder

/-- The low `w` bytes of `n`, low byte first. -/
def lowBytes : Nat → Nat → List UInt8
  | 0, _ => []
  | w + 1, n => UInt8.ofNat n :: lowBytes w (n / 256)

/-- The number with the given bytes, low byte first. -/
def ofLowBytes : List UInt8 → Nat
  | [] => 0
  | b :: bs => b.toNat + 256 * ofLowBytes bs

/-- `w` bytes of memory that hold `n`. -/
def memory (o : ByteOrder) (w n : Nat) : List UInt8 :=
  match o with
  | .little => lowBytes w n
  | .big => (lowBytes w n).reverse

/-- The number that the bytes `bs` of memory hold. -/
def value (o : ByteOrder) (bs : List UInt8) : Nat :=
  match o with
  | .little => ofLowBytes bs
  | .big => ofLowBytes bs.reverse

@[simp] theorem lowBytes_length (w : Nat) : ∀ n, (lowBytes w n).length = w := by
  induction w with
  | zero => exact fun _ => rfl
  | succ w ih =>
      intro n
      rw [lowBytes, List.length_cons, ih]

theorem ofLowBytes_lowBytes (w : Nat) : ∀ n, ofLowBytes (lowBytes w n) = n % 256 ^ w := by
  induction w with
  | zero =>
      intro n
      rw [lowBytes, ofLowBytes, pow_zero, Nat.mod_one]
  | succ w ih =>
      intro n
      have hlow : (UInt8.ofNat n).toNat = n % 256 := UInt8.toNat_ofNat' ..
      rw [lowBytes, ofLowBytes, ih, hlow, pow_succ', Nat.mod_mul]

theorem ofLowBytes_lt (bs : List UInt8) : ofLowBytes bs < 256 ^ bs.length := by
  induction bs with
  | nil => exact Nat.one_pos
  | cons b bs ih =>
      have hb : b.toNat < 256 := b.toNat_lt
      rw [ofLowBytes, List.length_cons, pow_succ']
      omega

theorem lowBytes_ofLowBytes (bs : List UInt8) : lowBytes bs.length (ofLowBytes bs) = bs := by
  induction bs with
  | nil => rfl
  | cons b bs ih =>
      have hb : b.toNat < 256 := b.toNat_lt
      have hhigh : (b.toNat + 256 * ofLowBytes bs) / 256 = ofLowBytes bs := by omega
      have hlow : UInt8.ofNat (b.toNat + 256 * ofLowBytes bs) = b := by
        refine UInt8.toNat_inj.mp ?_
        rw [UInt8.toNat_ofNat']
        omega
      rw [ofLowBytes, List.length_cons, lowBytes, hhigh, hlow, ih]

variable (o : ByteOrder)

@[simp] theorem memory_length (w n : Nat) : (o.memory w n).length = w := by
  cases o with
  | little => exact lowBytes_length w n
  | big => rw [memory, List.length_reverse, lowBytes_length]

theorem value_memory (w n : Nat) : o.value (o.memory w n) = n % 256 ^ w := by
  cases o with
  | little => exact ofLowBytes_lowBytes w n
  | big => rw [memory, value, List.reverse_reverse, ofLowBytes_lowBytes]

theorem memory_value (bs : List UInt8) : o.memory bs.length (o.value bs) = bs := by
  cases o with
  | little => exact lowBytes_ofLowBytes bs
  | big =>
      rw [memory, value, ← List.length_reverse, lowBytes_ofLowBytes, List.reverse_reverse]

/-- A number that was put into the other order and back. -/
theorem value_memory_value (p : ByteOrder) (w n : Nat) :
    o.value (p.memory w (p.value (o.memory w n))) = n % 256 ^ w := by
  have hback := p.memory_value (o.memory w n)
  rw [memory_length] at hback
  rw [hback, value_memory]

theorem value_lt (bs : List UInt8) : o.value bs < 256 ^ bs.length := by
  cases o with
  | little => exact ofLowBytes_lt bs
  | big =>
      rw [value, ← List.length_reverse]
      exact ofLowBytes_lt _

end ByteOrder
