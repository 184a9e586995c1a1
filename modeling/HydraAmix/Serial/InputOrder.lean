import HydraAmix.Serial.InputRing

/-!
# What the input ring keeps

`slrint` writes `head` and `slpoll` writes `tail`, each after it is done with the cell,
so the ring holds what was stored and not taken whatever the interleaving. A break that
`slpoll` ignores skips the end of the loop, where the receive interrupt is enabled: if
such a break is what makes room, nothing more is received.
-/
namespace HydraAmix.Serial.Input.Line
open Word Schedule

variable {s : Line}

/-! ### The ring -/

/-- The indexes are inside, the ring holds what was not taken, and the character that
`slpoll` is about to take is the first of it. -/
structure Sound (s : Line) : Prop where
  head : s.head.toNat < 256
  tail : s.tail.toNat < 256
  order : s.Ordered
  read : s.pc = .read → s.tail ≠ s.head
  got : ∀ c, s.pc = .got c → s.tail ≠ s.head ∧ c = s.buff s.tail.toNat

theorem nbytes_toNat (hh : s.head.toNat < 256) (ht : s.tail.toNat < 256) :
    s.nbytes.toNat = (256 + s.head.toNat - s.tail.toNat) % 256 := by
  unfold nbytes
  rw [BitVec.toNat_umod, BitVec.toNat_sub, BitVec.toNat_add]
  change (4294967296 - s.tail.toNat + (256 + s.head.toNat) % 4294967296) % 4294967296 % 256 = _
  omega

theorem next_toNat (x : BitVec 32) : ((x + 1) % BUFsize).toNat = (x.toNat + 1) % 256 := by
  rw [BitVec.toNat_umod, BitVec.toNat_add]
  change (x.toNat + 1) % 4294967296 % 256 = _
  omega

theorem contents_length (s : Line) : s.contents.length = s.nbytes.toNat := by
  rw [contents, Ring.fetch_length]

/-- One more character, where the ring is not full. -/
theorem contents_push (hh : s.head.toNat < 256) (ht : s.tail.toNat < 256)
    (hroom : s.nbytes.toNat < 255) {t : Line} {c : Word16}
    (hhead : t.head = (s.head + 1) % BUFsize) (htail : t.tail = s.tail)
    (hbuff : t.buff = Function.update s.buff s.head.toNat c) :
    t.contents = s.contents ++ [c] := by
  have hn := nbytes_toNat hh ht
  have hnext := next_toNat s.head
  have hn' : t.nbytes.toNat = s.nbytes.toNat + 1 := by
    have hh' : t.head.toNat < 256 := by rw [hhead, hnext]; omega
    have ht' : t.tail.toNat < 256 := by rw [htail]; exact ht
    rw [nbytes_toNat hh' ht', hhead, htail, hnext, hn]
    omega
  have hcell : Ring.cell 0 256 (s.tail.toNat + s.nbytes.toNat) = s.head.toNat := by
    rw [Ring.cell, hn]
    omega
  have hstore : t.buff = Ring.store 0 256 s.buff (s.tail.toNat + s.nbytes.toNat) [c] := by
    rw [hbuff, ← hcell]
    rfl
  rw [contents, contents, hn', htail, Ring.fetch_add, hstore]
  congr 1
  · apply Ring.fetch_store_behind
    · exact Nat.le_refl _
    · rw [List.length_singleton]
      omega
  · exact Ring.fetch_store_same 0 256 s.buff _ [c] (Nat.le_add_left 1 255)

/-- One character less. -/
theorem contents_pop (hh : s.head.toNat < 256) (ht : s.tail.toNat < 256) (hne : s.tail ≠ s.head)
    {t : Line} (hhead : t.head = s.head) (htail : t.tail = (s.tail + 1) % BUFsize)
    (hbuff : t.buff = s.buff) : s.contents = s.buff s.tail.toNat :: t.contents := by
  have hn := nbytes_toNat hh ht
  have hnext := next_toNat s.tail
  have hne' : s.tail.toNat ≠ s.head.toNat := fun he => hne (BitVec.eq_of_toNat_eq he)
  have hn' : s.nbytes.toNat = t.nbytes.toNat + 1 := by
    have hh' : t.head.toNat < 256 := by rw [hhead]; exact hh
    have ht' : t.tail.toNat < 256 := by rw [htail, hnext]; omega
    rw [nbytes_toNat hh' ht', hhead, htail, hnext, hn]
    omega
  have hcell : Ring.cell 0 256 s.tail.toNat = s.tail.toNat := by
    rw [Ring.cell]
    omega
  rw [contents, contents, hn', Ring.fetch_succ, hcell, hbuff, htail, hnext]
  congr 1
  apply Ring.fetch_congr_pos
  omega

/-! ### `slrint` -/

theorem Sound.push (h : Sound s) (hroom : s.nbytes.toNat < 255) {t : Line} {c : Word16}
    (hhead : t.head = (s.head + 1) % BUFsize) (htail : t.tail = s.tail)
    (hbuff : t.buff = Function.update s.buff s.head.toNat c)
    (hstored : t.stored = s.stored ++ [c]) (htaken : t.taken = s.taken) (hpc : t.pc = s.pc) :
    Sound t := by
  have hn := nbytes_toNat h.head h.tail
  have hnext := next_toNat s.head
  have hne : t.tail ≠ t.head := by
    intro he
    have hnat := congrArg BitVec.toNat he
    rw [htail, hhead, hnext] at hnat
    have hlt := h.tail
    omega
  refine ⟨?_, ?_, ?_, fun _ => hne, ?_⟩
  · rw [hhead, hnext]
    omega
  · rw [htail]
    exact h.tail
  · rw [Ordered, hstored, htaken, contents_push h.head h.tail hroom hhead htail hbuff,
      ← List.append_assoc, ← h.order]
  · intro d hd
    rw [hpc] at hd
    obtain ⟨hne', rfl⟩ := h.got d hd
    refine ⟨hne, ?_⟩
    rw [hbuff, htail, Function.update_of_ne]
    exact fun he => hne' (BitVec.eq_of_toNat_eq he)

theorem Sound.store (h : Sound s) (c : Word16) : Sound (s.store c) ∧
    (s.store c).stored = if s.contents.length = 255 then s.stored else s.stored ++ [c] := by
  have hn := nbytes_toNat h.head h.tail
  have hlen := contents_length s
  unfold Line.store
  split
  case isTrue hfull =>
    have hfull : 255 ≤ s.nbytes.toNat := hfull
    rw [if_pos (show s.contents.length = 255 by omega)]
    exact ⟨⟨h.head, h.tail, h.order, h.read, h.got⟩, rfl⟩
  case isFalse hroom =>
    have hroom : ¬ 255 ≤ s.nbytes.toNat := hroom
    rw [if_neg (show s.contents.length ≠ 255 by omega)]
    dsimp only
    split
    · exact ⟨h.push (by omega) rfl rfl rfl rfl rfl rfl, rfl⟩
    · exact ⟨h.push (by omega) rfl rfl rfl rfl rfl rfl, rfl⟩

theorem Sound.slrint (h : Sound s) (serdatr : Word16) (iflag : BitVec 32) :
    Sound (s.slrint serdatr iflag) ∧ s.Kept (.rint serdatr iflag) := by
  have hxoff : ∀ x, Sound { s with outputXoff := x } := fun _ =>
    ⟨h.head, h.tail, h.order, h.read, h.got⟩
  unfold Kept step Line.slrint Control
  dsimp only
  split
  case isTrue hoff =>
    exact ⟨h, fun hon => absurd (hoff.symm.trans hon) Bool.false_ne_true⟩
  case isFalse =>
    split
    case isTrue hixon =>
      split
      case isTrue hstart => exact ⟨hxoff false, fun _ hno => absurd ⟨hixon, .inl hstart⟩ hno⟩
      case isFalse =>
        split
        case isTrue hstop => exact ⟨hxoff true, fun _ hno => absurd ⟨hixon, .inr hstop⟩ hno⟩
        case isFalse =>
          split
          · obtain ⟨hs, hk⟩ := (hxoff false).store (serdatr &&& DATASTOP)
            exact ⟨hs, fun _ _ => hk⟩
          · obtain ⟨hs, hk⟩ := h.store (serdatr &&& DATASTOP)
            exact ⟨hs, fun _ _ => hk⟩
    case isFalse =>
      obtain ⟨hs, hk⟩ := h.store (serdatr &&& DATASTOP)
      exact ⟨hs, fun _ _ => hk⟩

/-! ### `slpoll` -/

/-- A step of `slpoll` that takes nothing. -/
theorem Sound.stay (h : Sound s) {t : Line} (hhead : t.head = s.head) (htail : t.tail = s.tail)
    (hbuff : t.buff = s.buff) (hstored : t.stored = s.stored) (htaken : t.taken = s.taken)
    (hread : t.pc = .read → s.tail ≠ s.head)
    (hgot : ∀ c, t.pc = .got c → s.tail ≠ s.head ∧ c = s.buff s.tail.toNat) : Sound t := by
  have hcontents : t.contents = s.contents := by
    rw [contents, contents, nbytes, nbytes, hhead, htail, hbuff]
  refine ⟨?_, ?_, ?_, ?_, ?_⟩
  · rw [hhead]
    exact h.head
  · rw [htail]
    exact h.tail
  · rw [Ordered, hstored, htaken, hcontents]
    exact h.order
  · rw [hhead, htail]
    exact hread
  · rw [hhead, htail, hbuff]
    exact hgot

/-- A step of `slpoll` that takes the character it has. -/
theorem Sound.pop (h : Sound s) {c : Word16} (hc : s.pc = .got c) {t : Line}
    (hhead : t.head = s.head) (htail : t.tail = (s.tail + 1) % BUFsize) (hbuff : t.buff = s.buff)
    (hstored : t.stored = s.stored) (htaken : t.taken = s.taken ++ [c])
    (hpc : t.pc = .test ∨ t.pc = .enable) : Sound t := by
  obtain ⟨hne, hcell⟩ := h.got c hc
  have hcontents := contents_pop h.head h.tail hne hhead htail hbuff
  refine ⟨?_, ?_, ?_, ?_, ?_⟩
  · rw [hhead]
    exact h.head
  · rw [htail, next_toNat]
    omega
  · have horder := h.order
    rw [Ordered, hcontents, ← hcell] at horder
    rw [Ordered, hstored, htaken, horder, List.append_assoc]
    rfl
  · intro hread
    rw [hread] at hpc
    exact hpc.elim Pc.noConfusion Pc.noConfusion
  · intro d hd
    rw [hd] at hpc
    exact hpc.elim Pc.noConfusion Pc.noConfusion

theorem Sound.takeBreak (h : Sound s) {c : Word16} (hc : s.pc = .got c) (a : Answers) :
    Sound (s.takeBreak c a) := by
  unfold Line.takeBreak
  dsimp only
  split
  · exact h.pop hc rfl rfl rfl rfl rfl (.inl rfl)
  · split
    · exact h.pop hc rfl rfl rfl rfl rfl (.inr rfl)
    · exact h.pop hc rfl rfl rfl rfl rfl (.inr rfl)

theorem Sound.takeChar (h : Sound s) {c : Word16} (hc : s.pc = .got c) (a : Answers) :
    Sound (s.takeChar c a) := by
  have hput : Sound (if a.full then s.putnext else s) ∧
      (if a.full then s.putnext else s).pc = .got c := by
    split
    · exact ⟨h.stay rfl rfl rfl rfl rfl h.read h.got, hc⟩
    · exact ⟨h, hc⟩
  unfold Line.takeChar
  generalize (if a.full then s.putnext else s) = t at hput ⊢
  dsimp only
  split
  · exact hput.1.stay rfl rfl rfl rfl rfl Pc.noConfusion fun _ => Pc.noConfusion
  · exact hput.1.pop hput.2 rfl rfl rfl rfl rfl (.inr rfl)

theorem Sound.slpoll (h : Sound s) (a : Answers) : Sound (s.slpoll a) := by
  unfold Line.slpoll
  split
  case h_1 => exact h.stay rfl rfl rfl rfl rfl Pc.noConfusion fun _ => Pc.noConfusion
  case h_2 =>
    split
    case isTrue hmore =>
      exact h.stay rfl rfl rfl rfl rfl (fun _ => hmore.2.1) fun _ => Pc.noConfusion
    case isFalse => exact h.stay rfl rfl rfl rfl rfl Pc.noConfusion fun _ => Pc.noConfusion
  case h_3 hread =>
    refine h.stay rfl rfl rfl rfl rfl Pc.noConfusion fun c hc => ?_
    exact ⟨h.read hread, (Pc.got.inj hc).symm⟩
  case h_4 c hc =>
    split
    · exact h.takeBreak hc a
    · exact h.takeChar hc a
  case h_5 => exact h.stay rfl rfl rfl rfl rfl Pc.noConfusion fun _ => Pc.noConfusion
  case h_6 => exact h.stay rfl rfl rfl rfl rfl Pc.noConfusion fun _ => Pc.noConfusion
  case h_7 => exact h.stay rfl rfl rfl rfl rfl Pc.noConfusion fun _ => Pc.noConfusion

theorem opened_sound : Sound opened where
  head := by decide
  tail := by decide
  order := rfl
  read := Pc.noConfusion
  got _ := Pc.noConfusion

theorem step_sound (h : Sound s) (e : Event) : Sound (step s e) ∧ s.Kept e := by
  cases e with
  | rint serdatr iflag => exact h.slrint serdatr iflag
  | poll a => exact ⟨h.slpoll a, trivial⟩

/-! ### The receive interrupt -/

/-- Until `slpoll` has enabled the interrupt, what it took counts. -/
def Heard (s : Line) : Prop := s.pc ≠ .enable → 0 < s.since → s.enabled = true

theorem Heard.reenabled (h : Heard s) : s.Reenabled := by
  rintro (hpc | hpc)
  · exact h (by rw [hpc]; exact Pc.noConfusion)
  · exact h (by rw [hpc]; exact Pc.noConfusion)

theorem Heard.store (h : Heard s) (c : Word16) : Heard (s.store c) := by
  unfold Line.store
  split
  · exact fun _ hs => absurd hs (Nat.lt_irrefl 0)
  · dsimp only
    split
    · exact h
    · exact h

theorem Heard.slrint (h : Heard s) (serdatr : Word16) (iflag : BitVec 32) :
    Heard (s.slrint serdatr iflag) := by
  have hxoff : ∀ x, Heard { s with outputXoff := x } := fun _ => h
  unfold Line.slrint
  dsimp only
  split
  · exact h
  · split
    · split
      · exact hxoff false
      · split
        · exact hxoff true
        · split
          · exact (hxoff false).store _
          · exact h.store _
    · exact h.store _

theorem Heard.takeChar (h : Heard s) {c : Word16} (hc : s.pc = .got c) (a : Answers) :
    Heard (s.takeChar c a) := by
  have hput : 0 < (if a.full then s.putnext else s).since →
      (if a.full then s.putnext else s).enabled = true := by
    split
    · exact h (by rw [hc]; exact Pc.noConfusion)
    · exact h (by rw [hc]; exact Pc.noConfusion)
  unfold Line.takeChar
  generalize (if a.full then s.putnext else s) = t at hput ⊢
  dsimp only
  split
  · exact fun _ => hput
  · exact fun hne => absurd rfl hne

/-- Only an ignored break leaves the interrupt as it was. -/
theorem Heard.takeBreak {c : Word16} (hc : s.pc = .got c) (hbrk : c &&& DATASTOP = 0)
    {a : Answers} (hgood : s.BreakHeard (.poll a)) : Heard (s.takeBreak c a) := by
  unfold Line.takeBreak
  dsimp only
  split
  case isTrue hign => exact fun _ _ => hgood c hc hbrk hign
  case isFalse => exact fun hne => absurd rfl hne

theorem Heard.slpoll (h : Heard s) {a : Answers} (hgood : s.BreakHeard (.poll a)) :
    Heard (s.slpoll a) := by
  unfold Line.slpoll
  split
  case h_1 hpc => exact fun _ => h (by rw [hpc]; exact Pc.noConfusion)
  case h_2 hpc =>
    have hnow := h (by rw [hpc]; exact Pc.noConfusion)
    split
    · exact fun _ => hnow
    · exact fun _ => hnow
  case h_3 hpc => exact fun _ => h (by rw [hpc]; exact Pc.noConfusion)
  case h_4 c hc =>
    split
    case isTrue hbrk => exact Heard.takeBreak hc hbrk hgood
    case isFalse => exact h.takeChar hc a
  case h_5 => exact fun _ _ => rfl
  case h_6 hpc => exact fun _ => h (by rw [hpc]; exact Pc.noConfusion)
  case h_7 hpc => exact fun _ => h (by rw [hpc]; exact Pc.noConfusion)

theorem Heard.step (h : Heard s) {e : Event} (hgood : s.BreakHeard e) : Heard (s.step e) := by
  cases e with
  | rint serdatr iflag => exact h.slrint serdatr iflag
  | poll a => exact h.slpoll hgood

/-- After a break that is ignored, the interrupt is enabled only if it was. -/
theorem breakHeard_of_reenabled {e : Event} (h : (s.step e).Reenabled) : s.BreakHeard e := by
  cases e with
  | rint => trivial
  | poll a =>
      intro c hc hbrk hign
      have hnext : s.slpoll a = { s.take c with pc := .test } := by
        rw [Line.slpoll, hc]
        dsimp only
        rw [if_pos hbrk, Line.takeBreak]
        exact if_pos hign
      change (s.slpoll a).Reenabled at h
      rw [hnext] at h
      exact h (.inr rfl) (Nat.succ_pos s.since)

/-- In every run and at every point of it, the characters stored are the characters
taken and those in the ring, and every character that comes is stored unless the ring is
full; and the receive interrupt is enabled again after a full ring exactly in the runs
in which no break is ignored while it is disabled. -/
theorem serial_input_ring (es : List Event) :
    Every step (fun s e => (s.step e).Ordered ∧ s.Kept e) opened es ∧
      (Every step (fun s e => (s.step e).Reenabled) opened es ↔
        Every step BreakHeard opened es) := by
  constructor
  · have hany : Every step (fun _ _ => True) opened es :=
      every_of_forall (fun _ _ => trivial) opened es
    refine every_of_invariant Sound ?_ ?_ opened_sound hany
    · intro s e h _
      exact (step_sound h e).1
    · intro s e h _
      exact ⟨(step_sound h e).1.order, (step_sound h e).2⟩
  · apply every_iff Heard
    · intro s e h hgood
      exact h.step hgood
    · intro s e h
      exact ⟨breakHeard_of_reenabled, fun hgood => (h.step hgood).reenabled⟩
    · exact fun _ hs => absurd hs (Nat.lt_irrefl 0)

/-- The ring fills with breaks, and `slpoll` ignores one: there is room, and the receive
interrupt stays disabled. -/
theorem serial_input_deaf : ¬ ∀ es : List Event,
    Every step (fun s e => (s.step e).Ordered ∧ s.Kept e) opened es ∧
      Every step (fun s e => (s.step e).Reenabled) opened es := by
  intro h
  have hrun := (h (List.replicate 256 (.rint 0 0) ++
    List.replicate 4 (.poll ⟨true, true, 1, 0, 0, false, true⟩))).2
  have hlast := final_of_every Reenabled (fun _ _ _ hnext => hnext) (by decide) hrun
  exact absurd hlast (by decide +kernel)

end HydraAmix.Serial.Input.Line
