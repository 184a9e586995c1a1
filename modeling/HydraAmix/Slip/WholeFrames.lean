import HydraAmix.Slip.Frames

/-!
# When `ttyrput` hands up whole frames

`ttyrput` gives a frame up in four ways: the block is full, there was none,
there is no header block, the receiver is not ready. The first two go on in the
middle of the frame, and the last leaves the block for the next one, so a packet
can be the last part of a frame, lack the first part, or begin with frames that
were refused.
-/
namespace HydraAmix.Slip
open Word Library Schedule

namespace Slipdev

/-- Each packet that comes with the end of a frame is that frame. A frame that
is dropped then leaves no bytes to a later one, or the later packet would hold
more than its own frame. -/
def HandsUpWhole (slip : Slipdev) (f : Frame) : Prop :=
  ∀ p ∈ (slip.frame f).2, p.data = content false f.body

/-- The frame starts a block of its own with its first byte and fits it. A block
that was left over does as well if it is full to the last byte. -/
def StartsClean (slip : Slipdev) (f : Frame) : Prop :=
  content slip.escaped f.body = content false f.body ∧
    match slip.curblk with
    | none => ∃ x more, (stored f.body).head? = some x ∧ x.2.buffer = some more ∧
        (stored f.body).length ≤ SLIP_MAX + more
    | some outmp => outmp.bytes.length = outmp.lim ∧ 0 < (stored f.body).length ∧
        (stored f.body).length ≤ outmp.lim

/-- The end finds the receiver ready, a header block and something to send up. -/
def Accepted (slip : Slipdev) (f : Frame) : Prop :=
  f.fin.canput = true ∧ f.fin.header = true ∧
    (slip.curblk = none → ∃ x ∈ stored f.body, x.2.buffer ≠ none)

section
variable {slip : Slipdev} {f : Frame}

/-- The block that an accepted frame is handed up in. -/
theorem frame_accepted (ho : Open f.body) (h : slip.Held) :
    (slip.Accepted f ∧ ∃ outmp, (slip.ttyrput f.body).1.curblk = some outmp ∧
      (slip.frame f).2 = [unitdataInd outmp.bytes]) ∨
    (¬ slip.Accepted f ∧ (slip.frame f).2 = []) := by
  have hheld := h.ttyrput_open ho
  rw [frame_eq slip ho, frameEnd]
  have hnone : (slip.ttyrput f.body).1.curblk = none ↔
      slip.curblk = none ∧ ∀ x ∈ stored f.body, x.2.buffer = none := by
    cases hb : slip.curblk with
    | none =>
        rcases ttyrput_empty ho hb with ⟨hn, hall⟩ | ⟨bs, lim, hbs, -, -, -, ⟨x, hx, hxb⟩, -⟩
        · exact ⟨fun _ => ⟨rfl, hall⟩, fun _ => hn⟩
        · rw [hbs]
          exact ⟨nofun, fun hall => absurd (hall.2 x hx) hxb⟩
    | some outmp =>
        obtain ⟨hne, hlim⟩ := h outmp hb
        obtain ⟨bs, hbs, -⟩ := ttyrput_filled ho hb hne hlim
        rw [hbs]
        exact ⟨nofun, fun hall => absurd hall.1 nofun⟩
  cases hb : (slip.ttyrput f.body).1.curblk with
  | none =>
      obtain ⟨hs, hall⟩ := hnone.mp hb
      refine .inr ⟨fun hacc => ?_, rfl⟩
      obtain ⟨x, hx, hxb⟩ := hacc.2.2 hs
      exact hxb (hall x hx)
  | some outmp =>
      have hstored : slip.curblk = none → ∃ x ∈ stored f.body, x.2.buffer ≠ none := by
        intro hs
        by_contra hall
        push Not at hall
        exact absurd (hb.symm.trans (hnone.mpr ⟨hs, hall⟩)) nofun
      dsimp only
      by_cases hready : f.fin.canput = true
      · rw [if_pos ⟨(hheld outmp hb).1, hready⟩]
        by_cases hheader : f.fin.header = true
        · rw [if_pos hheader]
          exact .inl ⟨⟨hready, hheader, hstored⟩, outmp, rfl, rfl⟩
        · rw [if_neg hheader]
          exact .inr ⟨fun hacc => hheader hacc.2.1, rfl⟩
      · rw [if_neg fun hc => hready hc.2]
        exact .inr ⟨fun hacc => hready hacc.1, rfl⟩

/-- What is left of a frame that is as long as the frame is the frame. -/
theorem suffix_eq_iff {bs pre : List Byte} {escaped : Bool}
    (hsuf : bs <:+ pre ++ content escaped f.body) :
    bs = content false f.body ↔
      content escaped f.body = content false f.body ∧ bs.length = (stored f.body).length := by
  constructor
  · rintro rfl
    obtain ⟨front, hfront⟩ := hsuf
    have hlen : (content false f.body).length = (content escaped f.body).length := by
      rw [length_content, length_content]
    exact ⟨(List.append_inj' hfront hlen).2.symm, length_content _ _⟩
  · rintro ⟨heq, hlen⟩
    obtain ⟨front, hfront⟩ := hsuf
    rw [← heq]
    exact (List.append_inj' hfront (hlen.trans (length_content _ _).symm)).2

/-- Round the block and back to its first byte. -/
theorem round_iff {k m lim : ℕ} (hk : 0 < k) (hle : k ≤ lim) :
    (k + m - 1) % lim + 1 = m ↔ k = lim ∧ 0 < m ∧ m ≤ lim := by
  have hlim : 0 < lim := Nat.lt_of_lt_of_le hk hle
  constructor
  · intro h
    have hmod := Nat.mod_lt (k + m - 1) hlim
    have hdiv := Nat.div_add_mod (k + m - 1) lim
    obtain ⟨q, hq⟩ : ∃ q, (k + m - 1) / lim = q := ⟨_, rfl⟩
    rw [hq] at hdiv
    have hkq : lim * q = k := by omega
    rcases q with _ | _ | q
    · omega
    · omega
    · have : lim * 2 ≤ lim * (q + 1 + 1) := Nat.mul_le_mul_left lim (by omega)
      omega
  · rintro ⟨rfl, hm, hml⟩
    rw [show k + m - 1 = m - 1 + k by omega, Nat.add_mod_right, Nat.mod_eq_of_lt (by omega)]
    omega

/-- One frame is handed up whole, or not at all, exactly if it starts clean
whenever it is accepted. -/
theorem handsUpWhole_iff (ho : Open f.body) (h : slip.Held) :
    slip.HandsUpWhole f ↔ (slip.Accepted f → slip.StartsClean f) := by
  rcases frame_accepted ho h with ⟨hacc, outmp, hout, hup⟩ | ⟨hacc, hup⟩
  · have hdata : slip.HandsUpWhole f ↔ outmp.bytes = content false f.body := by
      rw [HandsUpWhole, hup]
      exact ⟨fun hw => hw _ List.mem_cons_self,
        fun hw p hp => List.mem_singleton.mp hp ▸ hw⟩
    rw [hdata, StartsClean]
    cases hb : slip.curblk with
    | none =>
        obtain ⟨x, hx, hxb⟩ := hacc.2.2 hb
        rcases ttyrput_empty ho hb with ⟨-, hall⟩ | ⟨bs, lim, hbs, -, -, hsuf, -, hlen⟩
        · exact absurd (hall x hx) hxb
        · obtain rfl := Option.some.inj (hbs.symm.trans hout)
          rw [suffix_eq_iff (show _ <:+ [] ++ content _ _ from hsuf), hlen]
          exact ⟨fun hc _ => hc, fun hc => hc hacc⟩
    | some b =>
        obtain ⟨hne, hlim⟩ := h b hb
        obtain ⟨bs, hbs, hsuf, hlen⟩ := ttyrput_filled ho hb hne hlim
        obtain rfl := Option.some.inj (hbs.symm.trans hout)
        rw [suffix_eq_iff hsuf, hlen, round_iff (List.length_pos_iff.mpr hne) hlim]
        exact ⟨fun hc _ => hc, fun hc => hc hacc⟩
  · exact ⟨fun _ ha => absurd ha hacc, fun _ p hp => absurd (hup ▸ hp) List.not_mem_nil⟩

/-- No frame leaves an empty block, or one with more than fits. -/
theorem Held.frame (h : slip.Held) (ho : Open f.body) : (slip.frame f).1.Held := by
  have hheld := h.ttyrput_open ho
  rw [frame_eq slip ho, frameEnd]
  split
  · exact hheld
  · split
    · split <;> exact nofun
    · exact hheld

end

/-- The tty hands up whole frames or nothing in the course of a stream. -/
def WholeFrames (slip : Slipdev) (fs : List Frame) : Prop :=
  Every (fun s f => (s.frame f).1) HandsUpWhole slip fs

/-- Every packet that the messages of the tty bring up is one whole frame if
and only if each frame whose end is accepted starts clean. -/
theorem whole_frames_iff (slip : Slipdev) (hslip : slip.curblk = none)
    (messages : List (List Input)) :
    (slip.ttyopen.ttyrputs messages).2 = slip.ttyopen.delivered (frames messages.flatten) ∧
      (slip.ttyopen.WholeFrames (frames messages.flatten) ↔
        Every (fun s f => (s.frame f).1) (fun s f => s.Accepted f → s.StartsClean f)
          slip.ttyopen (frames messages.flatten)) := by
  refine ⟨?_, ?_⟩
  · rw [ttyrputs_flatten]
    exact ttyrput_frames slip.ttyopen open_nil messages.flatten
  · have hopen : ∀ f ∈ frames messages.flatten, Open f.body := fun f hf =>
      framesFrom_open open_nil hf
    have hheld : slip.ttyopen.Held := fun outmp ho => absurd (hslip.symm.trans ho) nofun
    generalize frames messages.flatten = fs at hopen
    generalize slip.ttyopen = s at hheld
    induction fs generalizing s with
    | nil => exact Iff.rfl
    | cons f fs ih =>
        have ho := hopen f List.mem_cons_self
        exact and_congr (handsUpWhole_iff ho hheld)
          (ih (fun g hg => hopen g (List.mem_cons_of_mem f hg)) _ (hheld.frame ho))

theorem whole_frames_iff_one :
    let yes : Answers := ⟨true, some 0, true⟩
    let xs : List (List Input) := [[(1, yes)], [(FRAME_END, yes)]]
    ((Slipdev.mk 0 0 0 0 none false).ttyopen.ttyrputs xs).2 =
        (Slipdev.mk 0 0 0 0 none false).ttyopen.delivered (frames xs.flatten) ∧
      ((Slipdev.mk 0 0 0 0 none false).ttyopen.WholeFrames (frames xs.flatten) ↔
        Every (fun s f => (s.frame f).1) (fun s f => s.Accepted f → s.StartsClean f)
          (Slipdev.mk 0 0 0 0 none false).ttyopen (frames xs.flatten)) := by
  intro yes xs
  exact whole_frames_iff _ rfl xs

/-- The receiver is not ready at the end of the first frame, so the second
packet holds both. -/
theorem whole_frames_fails :
    ¬ ∀ (slip : Slipdev) (messages : List (List Input)), slip.curblk = none →
      slip.ttyopen.WholeFrames (frames messages.flatten) := by
  intro h
  have hw := h ⟨0, 0, 0, 0, none, false⟩
    [[(1, ⟨true, some 0, true⟩), (FRAME_END, ⟨false, some 0, true⟩),
      (2, ⟨true, some 0, true⟩), (FRAME_END, ⟨true, some 0, true⟩)]] rfl
  exact absurd (hw.2.1 (unitdataInd [1, 2]) List.mem_cons_self) (by decide)

end Slipdev
end HydraAmix.Slip
