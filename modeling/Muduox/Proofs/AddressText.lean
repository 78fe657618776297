import Mathlib.Data.List.TakeWhile
import Muduox.Net.InetAddress
import Muduox.Proofs.ConnectionNames

/-!
# An address and its text

`inet_pton` reads a text once, from left to right, and what it has read is the
text of its variables (`Pton.text`). So it accepts nothing but four numbers
between dots, and returns those; the other way round it reads every number to
the end. From the two follows what `InetAddress` makes of a text, and that its
own text says which address it is.
-/

namespace Muduox.Net

theorem digit_eq {ch : Char} (h : ch.isDigit = true) :
    ch.toNat - 48 < 10 ∧ ch = (ch.toNat - 48).digitChar := by
  obtain ⟨hlow, hhigh⟩ := Char.isDigit_iff_toNat.mp h
  have h0 : '0'.toNat = 48 := rfl
  have h9 : '9'.toNat = 57 := rfl
  have hlt : ch.toNat - 48 < 10 := by omega
  refine ⟨hlt, Char.toNat_inj.mp ?_⟩
  rw [Nat.toNat_digitChar_of_lt_ten hlt]
  omega

theorem notMem_toDigits {ch : Char} (h : ch.isDigit = false) (n : Nat) :
    ch ∉ Nat.toDigits 10 n := by
  intro hmem
  rw [Nat.isDigit_of_mem_toDigits (by decide) (by decide) hmem] at h
  cases h

namespace Pton

/-- What was read when the variables are `s`. -/
def text (s : Pton) : List Char :=
  s.tmp.flatMap (fun b => Nat.toDigits 10 b.toNat ++ ['.']) ++
    if s.saw_digit then Nat.toDigits 10 s.tp.toNat else []

structure Inv (s : Pton) : Prop where
  count : s.octets = s.tmp.length + if s.saw_digit then 1 else 0
  fresh : s.saw_digit = false → s.tp = 0
  room : s.tmp.length ≤ 3

theorem inv_new : Inv {} := ⟨rfl, fun _ => rfl, Nat.zero_le _⟩

/-- After digit `d`. -/
def digit (s : Pton) (d : Nat) : Pton :=
  { s with
    tp := UInt8.ofNat (s.tp.toNat * 10 + d)
    octets := s.octets + if s.saw_digit then 0 else 1
    saw_digit := true }

/-- `d` may be the next digit. -/
structure Takes (s : Pton) (d : Nat) : Prop where
  lt : d < 10
  zero : s.saw_digit = true → s.tp ≠ 0
  small : s.tp.toNat * 10 + d ≤ 255
  room : s.saw_digit = false → s.octets ≠ 4

theorem step_digit {s : Pton} {d : Nat} (h : s.Takes d) :
    s.step d.digitChar = some (s.digit d) := by
  have hdigit : d.digitChar.isDigit = true := by
    rw [Nat.isDigit_digitChar]
    exact decide_eq_true h.lt
  have hzero : ¬(s.saw_digit && s.tp == 0) = true := by
    intro hz
    obtain ⟨hsaw, htp⟩ := Bool.and_eq_true_iff.mp hz
    exact h.zero hsaw (eq_of_beq htp)
  have hsmall : ¬255 < s.tp.toNat * 10 + d := Nat.not_lt.mpr h.small
  rw [step, if_pos hdigit]
  dsimp only
  rw [Nat.toNat_digitChar_sub_48_of_lt_ten h.lt, if_neg hzero, if_neg hsmall, digit]
  cases hsaw : s.saw_digit with
  | true => rfl
  | false =>
      rw [if_neg Bool.false_ne_true, if_neg (h.room hsaw)]
      rfl

theorem step_cases {s s' : Pton} {ch : Char} (h : s.step ch = some s') :
    (∃ d, s.Takes d ∧ ch = d.digitChar ∧ s' = s.digit d) ∨
      ch = '.' ∧ s.saw_digit = true ∧ s.octets ≠ 4 ∧
        s' = { s with tmp := s.tmp ++ [s.tp], tp := 0, saw_digit := false } := by
  by_cases hdigit : ch.isDigit = true
  · obtain ⟨hlt, hch⟩ := digit_eq hdigit
    have htakes : s.Takes (ch.toNat - 48) := by
      rw [step, if_pos hdigit] at h
      dsimp only at h
      split at h
      · cases h
      · next hzero =>
          split at h
          · cases h
          · next hsmall =>
              refine ⟨hlt, fun hsaw h0 => hzero ?_, Nat.not_lt.mp hsmall, fun hsaw hfour => ?_⟩
              · rw [hsaw, h0]
                rfl
              · rw [hsaw, if_neg Bool.false_ne_true, if_pos hfour] at h
                cases h
    refine .inl ⟨_, htakes, hch, ?_⟩
    rw [hch, step_digit htakes] at h
    exact (Option.some.inj h).symm
  · rw [step, if_neg hdigit] at h
    split at h
    · next hdot =>
        split at h
        · cases h
        · next hfour =>
            cases h
            exact .inr ⟨hdot.1, hdot.2, hfour, rfl⟩
    · cases h

theorem digit_text {s : Pton} {d : Nat} (hi : Inv s) (h : s.Takes d) :
    (s.digit d).text = s.text ++ [d.digitChar] := by
  have htp : (s.digit d).tp.toNat = s.tp.toNat * 10 + d := by
    have hsmall := h.small
    rw [digit, UInt8.toNat_ofNat']
    omega
  rw [text, text, if_pos (show (s.digit d).saw_digit = true from rfl), htp, List.append_assoc]
  congr 1
  cases hsaw : s.saw_digit with
  | true =>
      have hpos : 0 < s.tp.toNat :=
        Nat.pos_of_ne_zero fun h0 => h.zero hsaw (UInt8.toNat_inj.mp h0)
      rw [if_pos rfl, Nat.mul_comm, ← Nat.toDigits_append_toDigits (by decide) hpos h.lt,
        Nat.toDigits_of_lt_base h.lt]
  | false =>
      rw [if_neg Bool.false_ne_true, hi.fresh hsaw, UInt8.toNat_zero, Nat.zero_mul, Nat.zero_add,
        Nat.toDigits_of_lt_base h.lt, List.nil_append]

theorem step_text {s s' : Pton} {ch : Char} (hi : Inv s) (h : s.step ch = some s') :
    Inv s' ∧ s'.text = s.text ++ [ch] := by
  have hcount := hi.count
  rcases step_cases h with ⟨d, htakes, rfl, rfl⟩ | ⟨rfl, hsaw, hfour, rfl⟩
  · refine ⟨⟨?_, fun hn => absurd hn (Bool.false_ne_true ·.symm), hi.room⟩, digit_text hi htakes⟩
    show s.octets + _ = s.tmp.length + 1
    rw [hcount]
    cases s.saw_digit <;> rfl
  · rw [if_pos hsaw] at hcount
    have hroom := hi.room
    have hlen : (s.tmp ++ [s.tp]).length = s.tmp.length + 1 := List.length_append
    refine ⟨⟨?_, fun _ => rfl, ?_⟩, ?_⟩
    · rw [hlen]
      exact hcount
    · rw [hlen]
      omega
    · rw [text, text, if_pos hsaw, if_neg Bool.false_ne_true, List.flatMap_append,
        List.flatMap_singleton, List.append_nil, List.append_assoc]

theorem run_text {cs : List Char} : ∀ {s s' : Pton}, Inv s → cs.foldlM step s = some s' →
    Inv s' ∧ s'.text = s.text ++ cs := by
  induction cs with
  | nil =>
      intro s s' hi h
      cases h
      exact ⟨hi, (List.append_nil _).symm⟩
  | cons ch cs ih =>
      intro s s' hi h
      rw [List.foldlM_cons] at h
      obtain ⟨u, hu, h⟩ := Option.bind_eq_some_iff.mp h
      obtain ⟨hiu, htu⟩ := step_text hi hu
      obtain ⟨hi', ht'⟩ := ih hiu h
      exact ⟨hi', by rw [ht', htu, List.append_assoc, List.singleton_append]⟩

/-- A number is read to its end. -/
theorem run_number {s : Pton} (hsaw : s.saw_digit = false) (htp : s.tp = 0) (hroom : s.octets ≠ 4)
    {n : Nat} : n ≤ 255 → (Nat.toDigits 10 n).foldlM step s =
      some { s with tp := UInt8.ofNat n, octets := s.octets + 1, saw_digit := true } := by
  induction n using Nat.base_induction 10 (by decide) with
  | single d hd =>
      intro hn
      have hval : s.tp.toNat * 10 + d = d := by
        rw [htp, UInt8.toNat_zero]
        omega
      have htakes : s.Takes d :=
        ⟨hd, fun h => absurd (hsaw.symm.trans h) Bool.false_ne_true, by omega, fun _ => hroom⟩
      rw [Nat.toDigits_of_lt_base hd, List.foldlM_cons, step_digit htakes, digit, hval, hsaw]
      rfl
  | digit m d hd hm ih =>
      intro hn
      have hm8 : (UInt8.ofNat m).toNat = m := by
        rw [UInt8.toNat_ofNat']
        omega
      have hval : (UInt8.ofNat m).toNat * 10 + d = 10 * m + d := by omega
      have htakes : Takes
          { s with tp := UInt8.ofNat m, octets := s.octets + 1, saw_digit := true } d := by
        refine ⟨hd, fun _ h0 => ?_, by rw [hval]; exact hn, fun h => by cases h⟩
        rw [show UInt8.ofNat m = 0 from h0, UInt8.toNat_zero] at hm8
        omega
      rw [← Nat.toDigits_append_toDigits (by decide) hm hd, List.foldlM_append, ih (by omega),
        Nat.toDigits_of_lt_base hd]
      show List.foldlM step _ [_] = _
      rw [List.foldlM_cons, step_digit htakes, digit, hval]
      rfl

/-- A number and the dot behind it. -/
theorem run_dot {s : Pton} (hsaw : s.saw_digit = false) (htp : s.tp = 0) (hroom : s.octets < 3)
    (b : UInt8) (cs : List Char) : (Nat.toDigits 10 b.toNat ++ '.' :: cs).foldlM step s =
      cs.foldlM step { s with tmp := s.tmp ++ [b], octets := s.octets + 1 } := by
  have hb : b.toNat ≤ 255 := Nat.le_of_lt_succ b.toNat_lt
  rw [List.foldlM_append, run_number hsaw htp (by omega) hb, UInt8.ofNat_toNat]
  show List.foldlM step _ _ = _
  have hstep : step { s with tp := b, octets := s.octets + 1, saw_digit := true } '.' =
      some { s with tmp := s.tmp ++ [b], octets := s.octets + 1 } := by
    have hfour : ¬s.octets + 1 = 4 := by omega
    rw [step, if_neg (by decide), if_pos ⟨rfl, rfl⟩, if_neg hfour, ← htp, ← hsaw]
  rw [List.foldlM_cons, hstep]
  rfl

end Pton

theorem dotted_four (a b c d : UInt8) :
    dotted [a, b, c, d] = Nat.toDigits 10 a.toNat ++ '.' :: (Nat.toDigits 10 b.toNat ++
      '.' :: (Nat.toDigits 10 c.toNat ++ '.' :: Nat.toDigits 10 d.toNat)) := by
  simp [dotted, List.intercalate]

/-- `inet_pton` accepts four numbers between dots, and returns them. -/
theorem inet_pton_eq_some {src : List Char} {bs : List UInt8} :
    inet_pton src = some bs ↔ bs.length = 4 ∧ src = dotted bs := by
  constructor
  · intro h
    obtain ⟨s, hs, h⟩ := Option.bind_eq_some_iff.mp h
    obtain ⟨hi, htext⟩ := Pton.run_text Pton.inv_new hs
    split at h
    · cases h
    · next hfour =>
        cases h
        have hcount := hi.count
        have hroom := hi.room
        have hsaw : s.saw_digit = true := by
          by_contra hsaw
          rw [if_neg hsaw] at hcount
          omega
        rw [if_pos hsaw] at hcount
        obtain ⟨a, b, c, habc⟩ := List.length_eq_three.mp (show s.tmp.length = 3 by omega)
        refine ⟨by rw [habc]; rfl, ?_⟩
        rw [Pton.text, if_pos hsaw, habc] at htext
        rw [habc]
        show src = dotted [a, b, c, s.tp]
        rw [dotted_four]
        refine htext.symm.trans ?_
        simp only [List.flatMap_cons, List.flatMap_nil, List.append_assoc, List.cons_append,
          List.nil_append]
  · rintro ⟨hlen, rfl⟩
    obtain ⟨a, bs, rfl⟩ := List.exists_of_length_succ bs hlen
    obtain ⟨b, c, d, rfl⟩ := List.length_eq_three.mp (Nat.succ.inj hlen)
    have hd : d.toNat ≤ 255 := Nat.le_of_lt_succ d.toNat_lt
    rw [dotted_four, inet_pton, Pton.run_dot rfl rfl (by show 0 < 3; decide),
      Pton.run_dot rfl rfl (by show 1 < 3; decide), Pton.run_dot rfl rfl (by show 2 < 3; decide),
      Pton.run_number rfl rfl (by show 3 ≠ 4; decide) hd, UInt8.ofNat_toNat]
    rfl

theorem inet_pton_dotted {bs : List UInt8} (h : bs.length = 4) :
    inet_pton (dotted bs) = some bs := inet_pton_eq_some.mpr ⟨h, rfl⟩

theorem dotted_inj {bs bs' : List UInt8} (h : bs.length = 4) (h' : bs'.length = 4)
    (heq : dotted bs = dotted bs') : bs = bs' :=
  Option.some.inj ((inet_pton_dotted h).symm.trans ((congrArg inet_pton heq).trans
    (inet_pton_dotted h')))

theorem exists_four {bs : List UInt8} (h : bs.length = 4) : ∃ a b c d, bs = [a, b, c, d] := by
  obtain ⟨a, bs, rfl⟩ := List.exists_of_length_succ bs h
  obtain ⟨b, c, d, rfl⟩ := List.length_eq_three.mp (Nat.succ.inj h)
  exact ⟨a, b, c, d, rfl⟩

theorem toDigits_length_le (b : UInt8) : (Nat.toDigits 10 b.toNat).length ≤ 3 := by
  have hb : b.toNat < 256 := b.toNat_lt
  exact (Nat.length_toDigits_le_iff (by decide) (by decide)).mpr (by omega)

theorem dotted_length_le {bs : List UInt8} (h : bs.length = 4) : (dotted bs).length ≤ 15 := by
  obtain ⟨a, b, c, d, rfl⟩ := exists_four h
  have ha := toDigits_length_le a
  have hb := toDigits_length_le b
  have hc := toDigits_length_le c
  have hd := toDigits_length_le d
  rw [dotted_four]
  simp only [List.length_append, List.length_cons]
  omega

/-- There is nothing in it but digits and dots. -/
theorem notMem_dotted {bs : List UInt8} (h : bs.length = 4) {ch : Char}
    (hdigit : ch.isDigit = false) (hdot : ch ≠ '.') : ch ∉ dotted bs := by
  obtain ⟨a, b, c, d, rfl⟩ := exists_four h
  rw [dotted_four]
  simp only [List.mem_append, List.mem_cons, not_or]
  exact ⟨notMem_toDigits hdigit _, hdot, notMem_toDigits hdigit _, hdot,
    notMem_toDigits hdigit _, hdot, notMem_toDigits hdigit _⟩

theorem inet_ntop_eq {bs : List UInt8} (h : bs.length = 4) {size : Nat} (hsize : 16 ≤ size) :
    inet_ntop bs size = some (dotted bs) := by
  have hlen := dotted_length_le h
  rw [inet_ntop, if_pos (by omega)]

theorem cStr_dotted {bs : List UInt8} (h : bs.length = 4) : cStr (dotted bs) = dotted bs := by
  refine List.takeWhile_eq_self_iff.mpr fun ch hch => bne_iff_ne.mpr ?_
  rintro rfl
  exact notMem_dotted h (by decide) (by decide) hch

section Order

variable (o : ByteOrder)

/-- A port that was put into the other order and back. -/
theorem swap_swap (p : ByteOrder) (x : UInt16) :
    UInt16.ofNat (o.value (p.memory 2
      (UInt16.ofNat (p.value (o.memory 2 x.toNat))).toNat)) = x := by
  have hlt := p.value_lt (o.memory 2 x.toNat)
  rw [ByteOrder.memory_length] at hlt
  have hx : x.toNat < 2 ^ 16 := x.toNat_lt
  refine UInt16.toNat_inj.mp ?_
  rw [UInt16.toNat_ofNat', UInt16.toNat_ofNat', Nat.mod_eq_of_lt (a := p.value _) (by omega),
    ByteOrder.value_memory_value]
  omega

theorem networkToHost16_hostToNetwork16 (host : UInt16) :
    sockets.networkToHost16 o (sockets.hostToNetwork16 o host) = host := swap_swap .big o host

theorem hostToNetwork16_networkToHost16 (net : UInt16) :
    sockets.hostToNetwork16 o (sockets.networkToHost16 o net) = net := swap_swap o .big net

/-- `s_addr` after `inet_pton`. -/
theorem memory_sin_addr {bs : List UInt8} (h : bs.length = 4) :
    o.memory 4 (UInt32.ofNat (o.value bs)).toNat = bs := by
  have hlt := o.value_lt bs
  have hback := o.memory_value bs
  rw [h] at hlt hback
  rw [UInt32.toNat_ofNat', Nat.mod_eq_of_lt (by omega), hback]

theorem sin_addr_memory (x : UInt32) : UInt32.ofNat (o.value (o.memory 4 x.toNat)) = x := by
  have hx : x.toNat < 2 ^ 32 := x.toNat_lt
  refine UInt32.toNat_inj.mp ?_
  rw [ByteOrder.value_memory, UInt32.toNat_ofNat']
  omega

end Order

/-- Four numbers from 0 to 255 between dots, without leading zeros. -/
def Dotted (text : List Char) : Prop := ∃ bs, bs.length = 4 ∧ text = dotted bs

namespace InetAddress

variable (o : ByteOrder)

theorem toIp_eq (a : InetAddress) : a.toIp o = dotted (o.memory 4 a.addr_.sin_addr.toNat) := by
  rw [toIp, inet_ntop_eq (ByteOrder.memory_length ..) (Nat.le_refl _)]
  rfl

/-- An address is the one its text and its port make. What a text makes has that
text, or is `0.0.0.0` where the text is no address. -/
theorem text_round_trip (a : InetAddress) (ip : List Char) (port : UInt16) :
    ofText o (a.toIp o) (a.toPort o) = ⟨{ a.addr_ with sin_family := AF_INET }⟩ ∧
      (ofText o ip port).toPort o = port ∧
      (Dotted (cStr ip) → (ofText o ip port).toIp o = cStr ip) ∧
      (¬Dotted (cStr ip) → (ofText o ip port).toIp o = "0.0.0.0".toList) := by
  refine ⟨?_, ?_, ?_, fun hno => ?_⟩
  · have hlen : (o.memory 4 a.addr_.sin_addr.toNat).length = 4 := ByteOrder.memory_length ..
    rw [toIp_eq, ofText, cStr_dotted hlen, inet_pton_dotted hlen]
    dsimp only
    rw [toPort, hostToNetwork16_networkToHost16, sin_addr_memory]
  · rw [ofText]
    cases inet_pton (cStr ip) <;> exact networkToHost16_hostToNetwork16 o port
  · rintro ⟨bs, hlen, hip⟩
    rw [toIp_eq, ofText, hip, inet_pton_dotted hlen]
    dsimp only
    rw [memory_sin_addr o hlen]
  · have hnone : inet_pton (cStr ip) = none :=
      Option.eq_none_iff_forall_ne_some.mpr fun bs h => hno ⟨bs, inet_pton_eq_some.mp h⟩
    rw [toIp_eq, ofText, hnone]
    show dotted (o.memory 4 0) = _
    cases o <;> decide

theorem port_length_le (port : UInt16) : (Nat.toDigits 10 port.toNat).length ≤ 5 := by
  have hport : port.toNat < 2 ^ 16 := port.toNat_lt
  exact (Nat.length_toDigits_le_iff (by decide) (by decide)).mpr (by omega)

theorem toIp_length_le (a : InetAddress) : (a.toIp o).length ≤ 15 := by
  rw [toIp_eq]
  exact dotted_length_le (ByteOrder.memory_length ..)

theorem toIpPort_eq (a : InetAddress) : a.toIpPort o =
    a.toIp o ++ ':' :: Nat.toDigits 10 (a.toPort o).toNat := by
  have hip := toIp_length_le o a
  have hport := port_length_le (a.toPort o)
  have hbuf : (inet_ntop (o.memory 4 a.addr_.sin_addr.toNat) 32).getD [] = a.toIp o := by
    rw [toIp_eq, inet_ntop_eq (ByteOrder.memory_length ..) (by decide)]
    rfl
  rw [toIpPort, sockets.toIpPort, hbuf]
  rw [snprintf, List.take_of_length_le, toPort]
  rw [List.length_cons]
  show (Nat.toDigits 10 (a.toPort o).toNat).length + 1 ≤ _
  omega

theorem toIpPort_length_le (a : InetAddress) : (a.toIpPort o).length ≤ 21 := by
  have hip := toIp_length_le o a
  have hport := port_length_le (a.toPort o)
  rw [toIpPort_eq, List.length_append, List.length_cons]
  omega

/-- What the server keeps of the address it listens at. -/
def ipPort (a : InetAddress) : IpPort :=
  ⟨a.toIpPort o, Nat.le_trans (toIpPort_length_le o a) (by decide)⟩

/-- The text fits its buffer whole, and says which address and port it is. -/
theorem toIpPort_inj (a b : InetAddress) :
    (a.toIpPort o).length ≤ 21 ∧
      (a.toIpPort o = b.toIpPort o ↔
        a.addr_.sin_addr = b.addr_.sin_addr ∧ a.addr_.sin_port = b.addr_.sin_port) := by
  refine ⟨toIpPort_length_le o a, fun h => ?_, fun ⟨haddr, hport⟩ => ?_⟩
  · rw [toIpPort_eq, toIpPort_eq, toIp_eq, toIp_eq] at h
    have hcolon : ∀ x : UInt32, ':' ∉ dotted (o.memory 4 x.toNat) := fun x =>
      notMem_dotted (ByteOrder.memory_length ..) (by decide) (by decide)
    have hdigit : ∀ x : UInt16, ':' ∉ Nat.toDigits 10 x.toNat := fun x =>
      notMem_toDigits (by decide) _
    obtain ⟨hip, -, hport⟩ :=
      (List.append_cons_inj_of_notMem (hcolon _) (hdigit _)).mp h
    have haddr := dotted_inj (ByteOrder.memory_length ..) (ByteOrder.memory_length ..) hip
    have hp : a.toPort o = b.toPort o := UInt16.toNat_inj.mp (toDigits_inj hport)
    refine ⟨?_, ?_⟩
    · rw [← sin_addr_memory o a.addr_.sin_addr, haddr, sin_addr_memory]
    · rw [← hostToNetwork16_networkToHost16 o a.addr_.sin_port,
        ← hostToNetwork16_networkToHost16 o b.addr_.sin_port]
      exact congrArg _ hp
  · rw [toIpPort_eq, toIpPort_eq, toIp_eq, toIp_eq, toPort, toPort, haddr, hport]

end InetAddress

end Muduox.Net
