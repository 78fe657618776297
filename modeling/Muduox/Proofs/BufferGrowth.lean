import Muduox.Proofs.BufferFifo

/-!
# `ensureWritable` for every request

The contract of `ensureWritable(len)` rests on one sum, `writeIndex_ + len`. If
it does not wrap, neither does any other that the call computes, and the vector
grows to it or `resize` refuses. If it wraps, the request is larger than any
vector, and yet nothing throws: `resize` gets a size below `writeIndex_` and
cuts the vector off there, or, when `len + kPrependSize` wraps as well,
`makeSpace` takes the little that is left of it for the request and compacts.
-/

namespace Muduox.Net

namespace Buffer

/-! ## The states between calls -/

/-- What the contract of one call assumes of every call: no sum wraps, and the
kernel delivers no more than it was offered. -/
def Modest (b : Buffer) (op : Op) : Prop := b.NoWrap op.request ∧ op.Offered b

instance (b : Buffer) (op : Op) : Decidable (b.Modest op) := inferInstanceAs (Decidable (_ ∧ _))

theorem thrown_wf {b : Buffer} (h : b.Wf) (op : Op) : (b.thrown op).Wf := by
  cases op with
  | readFd r =>
      cases r with
      | error _ => exact h
      | bytes d =>
          have hwr := h.writableBytes_eq
          have h2 := h.read_le
          have h3 := h.write_le
          have hfit : (d.take b.writableBytes).length ≤ b.writableBytes := List.length_take_le _ _
          obtain ⟨b₁, hstore, -, hlen, hwrite, hwf, -⟩ := store_spec h hfit
          simp only [thrown, hstore]
          exact ⟨hwf.prepend_le, Nat.le_trans hwf.read_le hwf.write_le, Nat.le_refl _, hwf.size_le⟩
  | append _ | retrieve _ | retrieveAll | retrieveAsString _ | retrieveAllAsString
  | ensureWritable _ | recvFd _ => exact h

theorem step_wf {b b' : Buffer} {op : Op} (h : b.Wf) (hop : b.Modest op)
    (hs : b.step op = some b') : b'.Wf := by
  rcases exec_spec h hop.1 hop.2 with he | ⟨p, he, hwf, -⟩
  · simp only [step, he, Option.some.injEq] at hs
    exact hs ▸ thrown_wf h op
  · simp only [step, he, Option.some.injEq] at hs
    exact hs ▸ hwf

theorem wf_of_reach {b : Buffer} (h : Lts.ReachIf lts Modest b) : b.Wf :=
  h.inv (fun _ hb => by cases hb; exact new_wf) fun _ _ _ hwf hop hs => step_wf hwf hop hs

/-! ## One call -/

/-- `ensureWritable` assigns nothing before it can throw. -/
theorem ensureWritableOn_eq (b : Buffer) (len : Nat) :
    b.ensureWritableOn len =
      match b.ensureWritable len with
      | .error e => (.error e, b)
      | .ok b' => (.ok (), b') := by
  unfold ensureWritableOn ensureWritable
  split
  · unfold makeSpaceOn makeSpace
    split
    · cases b.moveToFront <;> rfl
    · cases resize b.buffer_ (addSz b.writeIndex_ len) <;> rfl
  · rfl

/-- The contract. The call throws and leaves the indices and the unread bytes as
they were, or it returns with room for the request, with the same unread bytes
and with the indices in order. -/
def Ensures (b : Buffer) (len : Nat) : Prop :=
  let outcome := (b.ensureWritableOn len).1
  let b' := (b.ensureWritableOn len).2
  outcome = .error .lengthError ∧
      b'.readIndex_ = b.readIndex_ ∧ b'.writeIndex_ = b.writeIndex_ ∧ b'.readable = b.readable ∨
    outcome = .ok () ∧
      len ≤ b'.writableBytes ∧ b'.readable = b.readable ∧ b'.readIndex_ ≤ b'.writeIndex_ ∧
        b'.writeIndex_ ≤ b'.buffer_.length

theorem ensures_of_noWrap {b : Buffer} (h : b.Wf) {len : Nat} (hw : b.NoWrap len) :
    b.Ensures len := by
  rcases ensureWritable_spec h hw with he | ⟨b', he, hwf, hread, hroom⟩
  · rw [Ensures, ensureWritableOn_eq, he]
    exact .inl ⟨rfl, rfl, rfl, rfl⟩
  · rw [Ensures, ensureWritableOn_eq, he]
    exact .inr ⟨rfl, hroom, hread, hwf.read_le, hwf.write_le⟩

theorem moveToFront_length {b : Buffer} (h : b.Wf) {m : List UInt8} (hm : b.moveToFront = .ok m) :
    m.length = b.buffer_.length := by
  have h1 := h.prepend_le
  have h2 := h.read_le
  have h3 := h.write_le
  unfold moveToFront at hm
  split at hm
  · cases hm
  · split at hm
    · cases hm
    · split at hm
      · next hcopy =>
          cases hm
          exact Mem.copyForward_length h1 (by omega) hcopy
      · cases hm

theorem moveToFront_throws (b : Buffer) : b.moveToFront ≠ .error .lengthError := by
  unfold moveToFront
  intro h
  split at h
  · cases h
  · split at h
    · cases h
    · split at h <;> cases h

/-- Compaction frees no more than the vector has. -/
theorem not_ensures_compact {b : Buffer} (h : b.Wf) {len : Nat}
    (hlen : b.buffer_.length < len) (hc : b.compacts len = true) : ¬ b.Ensures len := by
  have hwr := h.writableBytes_eq
  have h1 := h.prepend_le
  have h2 := h.read_le
  have h3 := h.write_le
  have h4 := h.size_lt
  have hfull : b.writableBytes < len := by omega
  rw [Ensures, ensureWritableOn, if_pos hfull, makeSpaceOn, if_pos hc]
  cases hm : b.moveToFront with
  | error e =>
      rintro (⟨hthrows, -⟩ | ⟨hreturns, -⟩)
      · cases hthrows
        exact moveToFront_throws b hm
      · cases hreturns
  | ok m =>
      rintro (⟨hthrows, -⟩ | ⟨-, hroom, -⟩)
      · cases hthrows
      · have hml := moveToFront_length h hm
        have hadd : addSz kPrependSize b.readableBytes =
            kPrependSize + (b.writeIndex_ - b.readIndex_) := by
          rw [h.readableBytes_eq, addSz_eq (by omega)]
        simp only [writableBytes, hadd, hml] at hroom
        rw [subSz_eq (by omega) h4] at hroom
        omega

/-- A size that wrapped is below `writeIndex_`. -/
theorem not_ensures_resize {b : Buffer} (h : b.Wf) {len : Nat} (hw : ¬ b.NoWrap len)
    (hsz : len < 2 ^ 64) (hlen : b.buffer_.length < len) (hc : ¬ b.compacts len = true) :
    ¬ b.Ensures len := by
  have hwr := h.writableBytes_eq
  have h3 := h.write_le
  have h5 := h.size_le
  unfold NoWrap at hw
  have hfull : b.writableBytes < len := by omega
  obtain ⟨n, hn, hlt⟩ : ∃ n, addSz b.writeIndex_ len = n ∧ n < b.writeIndex_ :=
    ⟨_, rfl, by unfold addSz; omega⟩
  rw [Ensures, ensureWritableOn, if_pos hfull, makeSpaceOn, if_neg hc, hn, resize,
    if_pos (by omega)]
  rintro (⟨hthrows, -⟩ | ⟨-, -, -, -, hle⟩)
  · cases hthrows
  · simp only [List.length_append, List.length_take, List.length_replicate] at hle
    omega

theorem noWrap_of_ensures {b : Buffer} (h : b.Wf) {len : Nat} (hsz : len < 2 ^ 64)
    (hens : b.Ensures len) : b.NoWrap len := by
  by_contra hw
  have h3 := h.write_le
  have h5 := h.size_le
  have hlen : b.buffer_.length < len := by
    unfold NoWrap at hw
    unfold maxSize at h5
    omega
  by_cases hc : b.compacts len = true
  · exact not_ensures_compact h hlen hc hens
  · exact not_ensures_resize h hw hsz hlen hc hens

/-- Whatever calls came before, none of them with a sum that wraps,
`ensureWritable(len)` keeps its contract iff its own sum does not wrap. -/
theorem ensures_iff_noWrap {b : Buffer} (h : Lts.ReachIf lts Modest b) {len : Nat}
    (hsz : len < 2 ^ 64) : b.Ensures len ↔ b.NoWrap len :=
  ⟨noWrap_of_ensures (wf_of_reach h) hsz, ensures_of_noWrap (wf_of_reach h)⟩

theorem ensures_iff_noWrap_fresh : new.Ensures 5000 :=
  (ensures_iff_noWrap (.init rfl) (by decide)).mpr (by simp only [NoWrap, new]; decide)

/-- A fresh buffer returns with what room it had; one that holds three bytes
returns with a vector of one. -/
theorem ensures_iff_noWrap_huge : ¬ new.Ensures (2 ^ 64 - 8) ∧
    ∃ b, Lts.Reach lts b ∧ b.readable = [1, 2, 3] ∧ ¬ b.Ensures (2 ^ 64 - 10) := by
  refine ⟨fun h => ?_, ?_⟩
  · have hw := noWrap_of_ensures new_wf (by decide) h
    simp only [NoWrap, new] at hw
    exact absurd hw (by decide)
  · obtain ⟨b, hb, hp⟩ := Lts.exists_reachIf lts Modest [.append [1, 2, 3]]
      (fun b => decide (b.readable = [1, 2, 3] ∧ b.writeIndex_ = 11)) (x := new) rfl
      (by decide +kernel)
    obtain ⟨hread, hwrite⟩ := of_decide_eq_true hp
    refine ⟨b, hb.reach, hread, fun h => ?_⟩
    have hw := noWrap_of_ensures (wf_of_reach hb) (by decide) h
    rw [NoWrap, hwrite] at hw
    exact absurd hw (by decide)

end Buffer

end Muduox.Net
