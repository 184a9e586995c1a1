import HydraAmix.Slip.Frames

/-!
# From `slipxmit` to `ttyrput`

Packets go out through `slipxmit` one after another, each in blocks of its own
choice; the characters reach `ttyrput` in messages that need not agree with
these. With room for the escaped packet in the transmit block and every
question answered with yes, `ttyrput` hands up the packets that were sent.
-/
namespace HydraAmix.Slip
open Word Library

/-- Every question asked while the character is handled is answered with yes. -/
def Answers.Willing (a : Answers) : Prop :=
  a.canput = true ∧ a.buffer.isSome = true ∧ a.header = true

/-- A packet to send: the blocks behind the request, and what `allocb` gives
beyond `2*SLIP_MAX`. -/
structure Outgoing where
  blocks : List (List Byte)
  room : ℕ

namespace Outgoing

def packet (p : Outgoing) : List Byte := p.blocks.flatten

/-- The packet as it goes over the line, without its end. -/
def escaped (p : Outgoing) : List Byte := p.packet.flatMap chars.stuff

/-- The transmit block is large enough. -/
def Fits (p : Outgoing) : Prop := p.escaped.length < 2 * SLIP_MAX + p.room

end Outgoing

/-- What the tty gets of packets that are sent while it accepts data. -/
def Slipdev.slipxmits : Slipdev → List Outgoing → Slipdev × List (List Byte)
  | slip, [] => (slip, [])
  | slip, p :: ps =>
      let r := slip.slipxmit true (some p.room) p.blocks
      let t := r.1.slipxmits ps
      (t.1, (r.2.map Mblk.bytes).toList ++ t.2)

section
variable {slip : Slipdev}

namespace Mblk

theorem putEscaped_eq (b : Mblk) (c : Byte) : b.putEscaped c = (chars.stuff c).foldl putc b := by
  unfold putEscaped Stuffing.stuff
  change _ = (if c = FRAME_ESCAPE then _ else if c = FRAME_END then _ else _ : List Byte).foldl _ _
  split_ifs <;> rfl

theorem foldl_putEscaped (b : Mblk) (blocks : List (List Byte)) :
    blocks.foldl (List.foldl putEscaped) b =
      (blocks.flatten.flatMap chars.stuff).foldl putc b := by
  rw [List.foldl_flatMap, List.foldl_flatten]
  congr 1
  funext b block
  congr 1
  funext b c
  exact putEscaped_eq b c

/-- As long as there is room, `putc` stores. -/
theorem foldl_putc (b : Mblk) (cs : List Byte) (h : b.bytes.length + cs.length ≤ b.lim) :
    cs.foldl putc b = { b with bytes := b.bytes ++ cs } := by
  induction cs generalizing b with
  | nil => rw [List.append_nil]; rfl
  | cons c cs ih =>
      rw [List.length_cons] at h
      have hput : b.putc c = { b with bytes := b.bytes ++ [c] } := if_pos (by omega)
      have hroom : (b.bytes ++ [c]).length + cs.length ≤ b.lim := by
        rw [List.length_append, List.length_singleton]
        omega
      rw [List.foldl_cons, hput, ih _ hroom, List.append_assoc]
      rfl

end Mblk

namespace Slipdev

theorem slipxmit_sent (slip : Slipdev) {p : Outgoing} (h : p.Fits) :
    slip.slipxmit true (some p.room) p.blocks =
      ({ slip with opackets := slip.opackets + 1 },
        some ⟨p.escaped ++ [FRAME_END], 2 * SLIP_MAX + p.room, false⟩) := by
  have hfits : p.escaped.length < 2 * SLIP_MAX + p.room := h
  rw [slipxmit, if_neg (by decide)]
  dsimp only
  rw [Mblk.foldl_putEscaped, Mblk.foldl_putc _ _ (by
    rw [List.length_nil, Nat.zero_add]
    exact Nat.le_of_lt hfits)]
  exact congrArg (fun b => (_, some b)) (if_pos hfits)

/-- A frame that fits and meets no refusal is handed up. -/
theorem frame_whole {f : Frame} (ho : Open f.body) (hb : slip.curblk = none)
    (hpos : 1 ≤ (content slip.escaped f.body).length)
    (hmax : (content slip.escaped f.body).length ≤ SLIP_MAX)
    (hans : ∀ x ∈ f.body, x.2.Willing) (hfin : f.fin.Willing) :
    (slip.frame f).2 = [unitdataInd (content slip.escaped f.body)] ∧
      (slip.frame f).1.curblk = none ∧
      (slip.frame f).1.escaped = chars.pending slip.escaped (f.body.map Prod.fst) := by
  rw [length_content] at hpos hmax
  obtain ⟨x, xs, hx⟩ := List.exists_cons_of_length_pos hpos
  have hmem : ∀ y ∈ stored f.body, y.2.Willing := fun y hy => hans y (List.mem_filter.mp hy).1
  have hbuf : x.2.buffer.isSome = true := (hmem x (hx ▸ List.mem_cons_self)).2.1
  have hhead : ∃ y more, (stored f.body).head? = some y ∧ y.2.buffer = some more ∧
      (stored f.body).length ≤ SLIP_MAX + more := by
    obtain ⟨more, hmore⟩ := Option.isSome_iff_exists.mp hbuf
    exact ⟨x, more, by rw [hx, List.head?_cons], hmore, by omega⟩
  have hesc := (slip.ttyrput_open ho).2
  rw [frame_eq slip ho]
  rcases ttyrput_empty ho hb with ⟨-, hall⟩ | ⟨bs, lim, hbs, hne, -, hsuf, -, hlen⟩
  · rw [hall x (hx ▸ List.mem_cons_self)] at hbuf
    exact absurd hbuf Bool.false_ne_true
  · obtain rfl := hsuf.eq_of_length ((hlen.mpr hhead).trans (length_content _ _).symm)
    rw [frameEnd, hbs]
    dsimp only
    rw [if_pos ⟨hne, hfin.1⟩, if_pos hfin.2.2]
    exact ⟨rfl, rfl, hesc⟩

end Slipdev

/-- Packets of one to `SLIP_MAX` bytes arrive as they were sent, one
indication each, however they were cut into blocks and their characters into
messages. -/
theorem slip_round_trip (tx rx : Slipdev) (hrx : rx.curblk = none) (packets : List Outgoing)
    (hsize : ∀ p ∈ packets, 1 ≤ p.packet.length ∧ p.packet.length ≤ SLIP_MAX)
    (hfits : ∀ p ∈ packets, p.Fits) (messages : List (List Input))
    (hline : messages.flatten.map Prod.fst = (tx.slipxmits packets).2.flatten)
    (hans : ∀ x ∈ messages.flatten, x.2.Willing) :
    (rx.ttyopen.ttyrputs messages).2 = packets.map fun p => unitdataInd p.packet := by
  rw [Slipdev.ttyrputs_flatten]
  generalize messages.flatten = xs at hline hans
  have hesc : rx.ttyopen.escaped = false := rfl
  have hrx' : rx.ttyopen.curblk = none := hrx
  generalize rx.ttyopen = slip at hesc hrx'
  induction packets generalizing tx slip xs with
  | nil =>
      obtain rfl := List.map_eq_nil_iff.mp hline
      rfl
  | cons p ps ih =>
      rw [Slipdev.slipxmits, Slipdev.slipxmit_sent tx (hfits p List.mem_cons_self)] at hline
      simp only [Option.map_some, Option.toList_some, List.flatten_append, List.flatten_cons,
        List.flatten_nil, List.append_nil, List.append_assoc] at hline
      obtain ⟨body, rest, rfl, hbody, hrest⟩ := List.map_eq_append_iff.mp hline
      obtain ⟨fin, ys, rfl, hfin, hys⟩ := List.map_eq_append_iff.mp hrest
      obtain ⟨⟨c, a⟩, rfl, rfl⟩ := List.map_eq_singleton_iff.mp hfin
      obtain ⟨hu, hp⟩ := Stuffing.unstuff_flatMap (c := chars) p.packet
      have ho : Open body := fun x hx he =>
        Stuffing.fin_notMem_flatMap (c := chars) p.packet
          (show FRAME_END ∈ p.escaped from hbody ▸ he ▸ List.mem_map_of_mem hx)
      have hcontent : content slip.escaped body = p.packet := by
        rw [content, hbody, hesc]
        exact hu
      have hframe := Slipdev.frame_whole (f := ⟨body, a⟩) ho hrx'
        (hcontent ▸ (hsize p List.mem_cons_self).1) (hcontent ▸ (hsize p List.mem_cons_self).2)
        (fun x hx => hans x (List.mem_append_left _ hx))
        (hans (FRAME_END, a) (List.mem_append_right _ (List.mem_append_left _ List.mem_cons_self)))
      have hnext := ih { tx with opackets := tx.opackets + 1 }
        (fun q hq => hsize q (List.mem_cons_of_mem p hq))
        (fun q hq => hfits q (List.mem_cons_of_mem p hq)) ys hys
        (fun x hx => hans x (List.mem_append_right _ (List.mem_append_right _ hx)))
        (slip.frame ⟨body, a⟩).1 (hframe.2.2.trans (by rw [hbody, hesc]; exact hp)) hframe.2.1
      rw [← List.append_assoc, Slipdev.ttyrput_append]
      change (slip.frame ⟨body, a⟩).2 ++ ((slip.frame ⟨body, a⟩).1.ttyrput ys).2 = _
      rw [hnext, hframe.1, hcontent]
      rfl

/-- A packet of an end and an escape in two blocks, and its characters in two
messages that part the first escape from its code. -/
theorem slip_round_trip_split :
    let yes (c : Byte) : Input := (c, ⟨true, some 0, true⟩)
    ((Slipdev.ttyopen ⟨0, 0, 0, 0, none, true⟩).ttyrputs
      [[yes 0x45#8, yes FRAME_ESCAPE], [yes TRANSPOSED_FRAME_END, yes FRAME_ESCAPE,
        yes TRANSPOSED_FRAME_ESCAPE, yes FRAME_END]]).2 =
      [unitdataInd [0x45#8, FRAME_END, FRAME_ESCAPE]] := by
  intro yes
  refine slip_round_trip ⟨0, 0, 0, 0, none, false⟩ ⟨0, 0, 0, 0, none, true⟩ rfl
    [⟨[[0x45#8, FRAME_END], [], [FRAME_ESCAPE]], 0⟩] ?_ ?_ _ ?_ ?_
  · intro p hp
    obtain rfl := List.mem_singleton.mp hp
    decide
  · intro p hp
    obtain rfl := List.mem_singleton.mp hp
    unfold Outgoing.Fits
    decide
  · rfl
  · intro x hx
    simp only [List.flatten_cons, List.flatten_nil, List.append_nil, List.cons_append,
      List.nil_append, List.mem_cons, List.not_mem_nil, or_false] at hx
    rcases hx with rfl | rfl | rfl | rfl | rfl | rfl <;> exact ⟨rfl, rfl, rfl⟩

end
end HydraAmix.Slip
