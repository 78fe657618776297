import Muduox.Proofs.BufferGrowth

/-!
# How much memory a buffer takes

The vector never shrinks, and it grows in one place: `makeSpace` resizes it to
`writeIndex_ + len`. That index says little about the load, because partial
retrieves move both indices to the right and give nothing back. What bounds it
is the test that has just failed: the room before the unread bytes and behind
them was less than `len + kPrependSize`, so `readIndex_` was, and the new size is
`readIndex_`, the unread bytes and the request. With at most `R` bytes unread or
asked for, that is less than `2 * R + kPrependSize`.
-/

namespace Muduox.Net

namespace Buffer

/-! ## What has returned -/

theorem of_bind_ok {ε α β : Type} {x : Except ε α} {f : α → Except ε β} {y : β}
    (h : x >>= f = .ok y) : ∃ a, x = .ok a ∧ f a = .ok y := by
  cases x with
  | error e => cases h
  | ok a => exact ⟨a, rfl, h⟩

theorem of_map_ok {ε α β : Type} {f : α → β} {x : Except ε α} {y : β} (h : x.map f = .ok y) :
    ∃ a, x = .ok a ∧ f a = y := by
  cases x with
  | error e => cases h
  | ok a => exact ⟨a, rfl, Except.ok.inj h⟩

/-! ## One call -/

/-- What a call makes of the size: nothing, or just enough for the request, with
too little room for it before the unread bytes and behind them. -/
theorem ensureWritable_length {b b' : Buffer} (h : b.Wf) {len : Nat} (hw : b.NoWrap len)
    (he : b.ensureWritable len = .ok b') :
    b'.buffer_.length = b.buffer_.length ∨
      b'.buffer_.length = b.writeIndex_ + len ∧
        b.readIndex_ + (b.buffer_.length - b.writeIndex_) < len + kPrependSize := by
  have hwr := h.writableBytes_eq
  have h2 := h.read_le
  have h3 := h.write_le
  have h4 := h.size_lt
  unfold NoWrap at hw
  unfold ensureWritable at he
  split at he
  · next hfull =>
      by_cases hc : b.compacts len = true
      · rw [makeSpace, if_pos hc] at he
        obtain ⟨m, hm, he⟩ := of_bind_ok he
        cases he
        exact .inl (moveToFront_length h hm)
      · rw [makeSpace, if_neg hc, addSz_eq hw] at he
        have htest : b.readIndex_ + (b.buffer_.length - b.writeIndex_) < len + kPrependSize := by
          have h1 := h.prepend_le
          rw [compacts, decide_eq_true_iff, prependableBytes, addSz_eq (by omega),
            addSz_eq (by omega)] at hc
          omega
        unfold resize at he
        split at he
        · cases he
          refine .inr ⟨?_, htest⟩
          simp only [List.length_append, List.length_take, List.length_replicate]
          omega
        · cases he
  · cases he
    exact .inl rfl

/-- The bound, where `R` bytes are unread or asked for. -/
theorem ensureWritable_size {b b' : Buffer} (h : b.Wf) {len R : Nat} (hw : b.NoWrap len)
    (he : b.ensureWritable len = .ok b') (hR : b.readableBytes + len ≤ R) :
    b'.buffer_.length ≤ max b.buffer_.length (2 * R + kPrependSize - 1) := by
  rcases ensureWritable_length h hw he with hsame | ⟨hnew, htest⟩
  · rw [hsame]
    exact Nat.le_max_left _ _
  · have h2 := h.read_le
    have hrd := h.readableBytes_eq
    -- `readIndex_` is at most `len + kPrependSize - 1`.
    have hle : b.writeIndex_ + len ≤ 2 * R + kPrependSize - 1 := by omega
    rw [hnew]
    exact Nat.le_trans hle (Nat.le_max_right _ _)

theorem store_length {b b' : Buffer} {d : List UInt8} (hs : b.store d = .ok b') :
    b'.buffer_.length = b.buffer_.length := by
  unfold store at hs
  split at hs
  · next hm =>
      cases hs
      exact Mem.write_length hm
  · cases hs

/-- An append that leaves `R` bytes unread. -/
theorem append_size {b b' : Buffer} (h : b.Wf) {d : List UInt8} {R : Nat}
    (hw : b.NoWrap d.length) (he : b.append d = .ok b') (hR : b'.readableBytes ≤ R) :
    b'.buffer_.length ≤ max b.buffer_.length (2 * R + kPrependSize - 1) := by
  have hload : b.readableBytes + d.length ≤ R := by
    rcases append_spec h hw with hthrows | ⟨b₁, he₁, hwf, hread⟩
    · rw [hthrows] at he
      cases he
    · cases he₁.symm.trans he
      have := congrArg List.length hread
      rw [List.length_append, hwf.readable_length, h.readable_length] at this
      omega
  obtain ⟨b₁, he₁, he⟩ := of_bind_ok he
  obtain ⟨b₂, hs, he⟩ := of_bind_ok he
  cases he
  show b₂.buffer_.length ≤ _
  rw [store_length hs]
  exact ensureWritable_size h hw he₁ hload

/-- A read that leaves `R` bytes unread. -/
theorem readFd_size {b : Buffer} (h : b.Wf) {r : RecvResult} {p : Buffer × Int} {R : Nat}
    (hw : b.NoWrap (delivered r).length) (he : b.readFd r = .ok p)
    (hR : p.1.readableBytes ≤ R) :
    p.1.buffer_.length ≤ max b.buffer_.length (2 * R + kPrependSize - 1) := by
  cases r with
  | error e =>
      cases he
      exact Nat.le_max_left _ _
  | bytes d =>
      have hwr := h.writableBytes_eq
      have h3 := h.write_le
      have hfit : (d.take b.writableBytes).length ≤ b.writableBytes := List.length_take_le _ _
      obtain ⟨b₁, hs, hwrite, hlen, -, -, -⟩ := store_spec h hfit
      obtain ⟨_, hs', he⟩ := of_bind_ok he
      cases hs.symm.trans hs'
      simp only [hwrite] at he
      split at he
      · cases he
        show b₁.buffer_.length ≤ _
        rw [hlen]
        exact Nat.le_max_left _ _
      · next hmore =>
          have hwf : Wf { b₁ with writeIndex_ := b₁.buffer_.length } := by
            have := thrown_wf h (.readFd (.bytes d))
            simpa only [thrown, hs] using this
          have hnoWrap : NoWrap { b₁ with writeIndex_ := b₁.buffer_.length }
              (d.drop b.writableBytes).length := by
            unfold NoWrap at hw ⊢
            rw [delivered] at hw
            simp only [List.length_drop, hlen]
            omega
          obtain ⟨b₂, ha, he⟩ := of_bind_ok he
          cases he
          have hsize := append_size hwf hnoWrap ha hR
          rwa [hlen] at hsize

theorem recvFd_size {b : Buffer} (h : b.Wf) {r : RecvResult} {p : Buffer × Int} {R : Nat}
    (hw : b.NoWrap kExtraSize) (he : b.recvFd r = .ok p)
    (hR : b.readableBytes + kExtraSize ≤ R) :
    p.1.buffer_.length ≤ max b.buffer_.length (2 * R + kPrependSize - 1) := by
  obtain ⟨b₁, he₁, he⟩ := of_bind_ok he
  have hsize := ensureWritable_size h hw he₁ hR
  cases r with
  | error e =>
      cases he
      exact hsize
  | bytes d =>
      cases d with
      | nil =>
          cases he
          exact hsize
      | cons x xs =>
          obtain ⟨b₂, hs, he⟩ := of_bind_ok he
          cases he
          show b₂.buffer_.length ≤ _
          rw [store_length hs]
          exact hsize

theorem thrown_length (b : Buffer) (op : Op) : (b.thrown op).buffer_.length = b.buffer_.length := by
  cases op with
  | readFd r =>
      cases r with
      | error _ => rfl
      | bytes d =>
          cases hs : b.store (d.take b.writableBytes) with
          | error e => simp only [thrown, hs]
          | ok b₁ =>
              simp only [thrown, hs]
              exact store_length hs
  | append _ | retrieve _ | retrieveAll | retrieveAsString _ | retrieveAllAsString
  | ensureWritable _ | recvFd _ => rfl

/-! ## Runs -/

/-- A load of `R`: so many bytes at most are unread after a call that adds some,
and unread or asked for when room is made. -/
def Loaded (R : Nat) (b : Buffer) (op : Op) : Prop :=
  match op with
  | .append _ | .readFd _ => ∀ b' ∈ b.step op, b'.readableBytes ≤ R
  | .ensureWritable len => b.readableBytes + len ≤ R
  | .recvFd _ => b.readableBytes + kExtraSize ≤ R
  | .retrieve _ | .retrieveAll | .retrieveAsString _ | .retrieveAllAsString => True

instance decidableLoaded (R : Nat) (b : Buffer) : (op : Op) → Decidable (b.Loaded R op)
  | .append _ | .readFd _ => Option.decidableForallMem _
  | .ensureWritable _ | .recvFd _ => Nat.decLe _ _
  | .retrieve _ | .retrieveAll | .retrieveAsString _ | .retrieveAllAsString => .isTrue trivial

theorem retrieve_buffer (b : Buffer) (len : Nat) : (b.retrieve len).buffer_ = b.buffer_ := by
  unfold retrieve
  split <;> rfl

theorem retrieveAsString_buffer {b : Buffer} {len : Nat} {p : Buffer × List UInt8}
    (he : b.retrieveAsString len = .ok p) : p.1.buffer_ = b.buffer_ := by
  obtain ⟨d, -, he⟩ := of_bind_ok he
  cases he
  exact retrieve_buffer b _

/-- One call, for a load of `R`. -/
theorem exec_size {b : Buffer} (h : b.Wf) {op : Op} {p : Buffer × List UInt8} {R : Nat}
    (hw : b.NoWrap op.request) (hl : b.Loaded R op) (he : b.exec op = .ok p) :
    p.1.buffer_.length ≤ max b.buffer_.length (2 * R + kPrependSize - 1) := by
  have hstep : b.step op = some p.1 := by simp only [step, he]
  cases op with
  | append d =>
      obtain ⟨b', he', rfl⟩ := of_map_ok he
      exact append_size h hw he' (hl _ hstep)
  | readFd r =>
      obtain ⟨q, he', rfl⟩ := of_map_ok he
      exact readFd_size h hw he' (hl _ hstep)
  | ensureWritable len =>
      obtain ⟨b', he', rfl⟩ := of_map_ok he
      exact ensureWritable_size h hw he' hl
  | recvFd r =>
      obtain ⟨q, he', rfl⟩ := of_map_ok he
      exact recvFd_size h hw he' hl
  | retrieve len =>
      cases he
      rw [retrieve_buffer]
      exact Nat.le_max_left _ _
  | retrieveAll =>
      cases he
      exact Nat.le_max_left _ _
  | retrieveAsString len | retrieveAllAsString =>
      rw [retrieveAsString_buffer he]
      exact Nat.le_max_left _ _

theorem step_size {b b' : Buffer} (h : b.Wf) {op : Op} {R : Nat} (hw : b.NoWrap op.request)
    (hl : b.Loaded R op) (hs : b.step op = some b') :
    b'.buffer_.length ≤ max b.buffer_.length (2 * R + kPrependSize - 1) := by
  cases he : b.exec op with
  | ok p =>
      simp only [step, he, Option.some.injEq] at hs
      exact hs ▸ exec_size h hw hl he
  | error e =>
      cases e with
      | lengthError =>
          simp only [step, he, Option.some.injEq] at hs
          rw [← hs, thrown_length]
          exact Nat.le_max_left _ _
      | outOfRange | overlap => simp [step, he] at hs

/-- What the bound asks of every call. -/
abbrev ModestLoad (R : Nat) (b : Buffer) (op : Op) : Prop := b.Modest op ∧ b.Loaded R op

/-- However long a run is and however its indices drift, the vector is bounded by
its peak load. -/
theorem size_bounded {R : Nat} {b : Buffer} (h : Lts.ReachIf lts (ModestLoad R) b) :
    b.buffer_.length ≤ max (kPrependSize + kInitialSize) (2 * R + kPrependSize - 1) := by
  refine h.inv_of (I := fun b => b.buffer_.length ≤
    max (kPrependSize + kInitialSize) (2 * R + kPrependSize - 1))
    (fun _ hb => wf_of_reach (hb.mono fun _ _ hc => hc.1)) (fun b hb => ?_)
    fun b op b' hwf hI hc hs => ?_
  · cases hb
    simp only [new, List.length_replicate]
    exact Nat.le_max_left _ _
  · exact Nat.le_trans (step_size hwf hc.1.1 hc.2 hs)
      (Nat.max_le.mpr ⟨hI, Nat.le_max_right _ _⟩)

/-- A vector that grew while its indices had drifted. -/
theorem size_bounded_drifted :
    ∃ b, Lts.ReachIf lts (ModestLoad 2001) b ∧ b.readIndex_ = 10 ∧ b.buffer_.length = 2011 ∧
      b.buffer_.length ≤ max (kPrependSize + kInitialSize) (2 * 2001 + kPrependSize - 1) := by
  obtain ⟨b, hb, hp⟩ := Lts.exists_reachIf lts (ModestLoad 2001)
    [.append [1, 2, 3], .retrieve 2, .ensureWritable 2000]
    (fun b => decide (b.readIndex_ = 10 ∧ b.buffer_.length = 2011)) (x := new) rfl
    (by decide +kernel)
  obtain ⟨hread, hlen⟩ := of_decide_eq_true hp
  exact ⟨b, hb, hread, hlen, size_bounded hb⟩

end Buffer

end Muduox.Net
