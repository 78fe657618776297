import Mathlib.Data.List.Basic
import Mathlib.Data.List.TakeDrop

/-!
# A block of memory, its windows, and copies that may overlap

A block is the list of its cells. Reading and writing a range outside the block
has no outcome (`none`), so an access that a program must not make is visible
as such. `copyForward` is the element-by-element loop in increasing order: on
overlapping ranges it destroys its own source when the destination is the
higher one, and is faithful when the destination is the lower one, which is
what `copyForward_window` says.

Everything here is stated through `window m lo hi`, the cells from `lo` up to
`hi`: a write extends the window that ends where it starts, growing the block
leaves windows alone, dropping from the front moves the lower bound.
-/

namespace Mem

variable {α : Type*}

/-- The cells of `m` at positions `lo`, …, `hi - 1`. -/
def window (m : List α) (lo hi : Nat) : List α := (m.take hi).drop lo

/-- Read the cells from `lo` up to `hi`, if they are cells of the block. -/
def read (m : List α) (lo hi : Nat) : Option (List α) :=
  if lo ≤ hi ∧ hi ≤ m.length then some (window m lo hi) else none

/-- Overwrite the cells from `pos` on with `d`, if they are cells of the block. -/
def write (m : List α) (pos : Nat) (d : List α) : Option (List α) :=
  if pos + d.length ≤ m.length then
    some (m.take pos ++ d ++ m.drop (pos + d.length))
  else none

/-- Copy `n` cells from `src` to `dst`, one after the other, lowest first. -/
def copyForward (m : List α) (src dst : Nat) : Nat → Option (List α)
  | 0 => some m
  | n + 1 =>
      match m[src]? with
      | some x =>
          if dst < m.length then copyForward (m.set dst x) (src + 1) (dst + 1) n
          else none
      | none => none

theorem window_length {m : List α} (lo : Nat) {hi : Nat} (h : hi ≤ m.length) :
    (window m lo hi).length = hi - lo := by
  simp [window, List.length_take, Nat.min_eq_left h]

@[simp] theorem window_self (m : List α) (lo : Nat) : window m lo lo = [] := by
  simp [window]

theorem window_drop (m : List α) (lo hi k : Nat) :
    (window m lo hi).drop k = window m (lo + k) hi := by
  rw [window, window, List.drop_drop]

theorem window_take {m : List α} {lo hi k : Nat} (h : lo + k ≤ hi) :
    (window m lo hi).take k = window m lo (lo + k) := by
  rw [window, window, List.take_drop, List.take_take, Nat.min_eq_left h]

theorem window_append_left {m : List α} (ext : List α) (lo : Nat) {hi : Nat}
    (h : hi ≤ m.length) : window (m ++ ext) lo hi = window m lo hi := by
  rw [window, window, List.take_append_of_le_length h]

theorem read_eq {m : List α} {lo hi : Nat} (hlo : lo ≤ hi) (hhi : hi ≤ m.length) :
    read m lo hi = some (window m lo hi) := if_pos ⟨hlo, hhi⟩

theorem write_eq {m d : List α} {pos : Nat} (h : pos + d.length ≤ m.length) :
    write m pos d = some (m.take pos ++ d ++ m.drop (pos + d.length)) := if_pos h

theorem write_length {m m' d : List α} {pos : Nat} (h : write m pos d = some m') :
    m'.length = m.length := by
  unfold write at h
  split at h
  · next hle =>
      injection h with h
      subst h
      simp only [List.length_append, List.length_take, List.length_drop]
      omega
  · cases h

/-- A write that starts where a window ends extends the window by what it
wrote. -/
theorem write_window {m m' d : List α} {lo pos : Nat} (hlo : lo ≤ pos)
    (h : write m pos d = some m') :
    window m' lo (pos + d.length) = window m lo pos ++ d := by
  unfold write at h
  split at h
  · next hle =>
      injection h with h
      subst h
      have hpos : (m.take pos).length = pos := by
        rw [List.length_take]; omega
      have htake : (m.take pos ++ d ++ m.drop (pos + d.length)).take (pos + d.length)
          = m.take pos ++ d := by
        have hlen : (m.take pos ++ d).length = pos + d.length := by
          rw [List.length_append, hpos]
        rw [List.take_append_of_le_length (by omega)]
        exact List.take_of_length_le (by omega)
      rw [window, window, htake, List.drop_append_of_le_length (by omega)]
  · cases h

/-- What the loop leaves behind when the destination is not above the source:
the block with the source range moved down to `dst`. -/
theorem copyForward_eq : ∀ {n : Nat} {m : List α} {src dst : Nat}, dst ≤ src →
    src + n ≤ m.length →
    copyForward m src dst n =
      some (m.take dst ++ window m src (src + n) ++ m.drop (dst + n)) := by
  intro n
  induction n with
  | zero =>
      intro m src dst _ _
      simp [copyForward]
  | succ n ih =>
      intro m src dst hle hlen
      have hsrc : src < m.length := by omega
      rw [copyForward, List.getElem?_eq_getElem hsrc]
      simp only []
      rw [if_pos (by omega : dst < m.length),
        ih (m := m.set dst m[src]) (by omega) (by rw [List.length_set]; omega)]
      have htake : (m.set dst m[src]).take (dst + 1) = m.take dst ++ [m[src]] := by
        rw [List.take_set, List.take_add_one, List.getElem?_eq_getElem (by omega),
          Option.toList_some, List.set_append_right _ _ (by rw [List.length_take]; omega)]
        have hz : dst - (m.take dst).length = 0 := by rw [List.length_take]; omega
        rw [hz]
        rfl
      have hdrop : (m.set dst m[src]).drop (dst + 1 + n) = m.drop (dst + (n + 1)) := by
        rw [List.drop_set_of_lt (by omega)]
        congr 1
        omega
      -- The write went below the cells the rest of the loop still reads.
      have hwin : window (m.set dst m[src]) (src + 1) (src + 1 + n) =
          window m (src + 1) (src + (n + 1)) := by
        rw [window, window, List.take_set, List.drop_set_of_lt (by omega)]
        congr 2
        omega
      have hhead : window m src (src + (n + 1)) =
          m[src] :: window m (src + 1) (src + (n + 1)) := by
        have hlt : src < (m.take (src + (n + 1))).length := by
          rw [List.length_take]; omega
        rw [window, List.drop_eq_getElem_cons hlt, List.getElem_take]
        rfl
      rw [htake, hdrop, hwin, hhead]
      simp

theorem copyForward_length {m m' : List α} {src dst n : Nat} (hle : dst ≤ src)
    (hlen : src + n ≤ m.length) (h : copyForward m src dst n = some m') :
    m'.length = m.length := by
  rw [copyForward_eq hle hlen, Option.some.injEq] at h
  subst h
  simp only [List.length_append, List.length_take, List.length_drop,
    window_length src hlen]
  omega

/-- Copying down preserves the copied cells, however the ranges overlap. -/
theorem copyForward_window {m m' : List α} {src dst n : Nat} (hle : dst ≤ src)
    (hlen : src + n ≤ m.length) (h : copyForward m src dst n = some m') :
    window m' dst (dst + n) = window m src (src + n) := by
  rw [copyForward_eq hle hlen, Option.some.injEq] at h
  subst h
  have hdst : (m.take dst).length = dst := by rw [List.length_take]; omega
  have hwin : (window m src (src + n)).length = n := by
    rw [window_length src hlen]; omega
  have hpre : (m.take dst ++ window m src (src + n)).length = dst + n := by
    rw [List.length_append, hdst, hwin]
  rw [window, List.take_append_of_le_length (by omega),
    List.take_of_length_le (by omega), List.drop_append_of_le_length (by omega),
    List.drop_of_length_le (by omega), List.nil_append]

end Mem
