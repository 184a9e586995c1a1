import HydraAmix.Library.Schedule
import HydraAmix.Slip.Line

/-!
# What one frame leaves in the block of `ttyrput`

A frame is what stands between two ends. A block that is there at its start is
filled up, emptied when it is full, and filled again: what it holds at the end
is the last part of what it held and what the frame says, and its length counts
round and round the block. Without a block the frame starts where the first
`allocb` succeeds.
-/
namespace HydraAmix.Slip
open Word Library Schedule

/-- A complete frame: what comes before its end, and the answers there. -/
structure Frame where
  body : List Input
  fin : Answers

/-- The complete frames of a stream whose current frame began with `body`. -/
def framesFrom (body : List Input) : List Input → List Frame
  | [] => []
  | x :: xs =>
      if x.1 = FRAME_END then ⟨body, x.2⟩ :: framesFrom [] xs else framesFrom (body ++ [x]) xs

/-- The complete frames of a stream. -/
def frames (xs : List Input) : List Frame := framesFrom [] xs

/-- The packet that the characters of a frame stand for. -/
def content (escaped : Bool) (body : List Input) : List Byte :=
  chars.unstuff escaped (body.map Prod.fst)

/-- The characters of a frame that stand for a byte of it. -/
def stored (body : List Input) : List Input := body.filter fun x => x.1 ≠ FRAME_ESCAPE

/-- No end among the characters. -/
def Open (body : List Input) : Prop := ∀ x ∈ body, x.1 ≠ FRAME_END

namespace Slipdev

/-- `ttyrput` from the first character of a frame to its end. -/
def frame (slip : Slipdev) (f : Frame) : Slipdev × List UnitdataInd :=
  slip.ttyrput (f.body ++ [(FRAME_END, f.fin)])

/-- The packets handed up in the course of frames. -/
def delivered : Slipdev → List Frame → List UnitdataInd
  | _, [] => []
  | slip, f :: fs => (slip.frame f).2 ++ (slip.frame f).1.delivered fs

/-- A block is never empty, and its bytes fit. -/
def Held (slip : Slipdev) : Prop :=
  ∀ outmp, slip.curblk = some outmp → outmp.bytes ≠ [] ∧ outmp.bytes.length ≤ outmp.lim

end Slipdev

section
variable {slip : Slipdev} {body : List Input} {outmp : Mblk}

theorem open_nil : Open [] := nofun

theorem Open.cons {x : Input} {xs : List Input} (h : Open (x :: xs)) :
    x.1 ≠ FRAME_END ∧ Open xs :=
  ⟨h x List.mem_cons_self, fun y hy => h y (List.mem_cons_of_mem x hy)⟩

theorem Open.concat {x : Input} {xs : List Input} (h : Open xs) (hx : x.1 ≠ FRAME_END) :
    Open (xs ++ [x]) := fun y hy =>
  (List.mem_append.mp hy).elim (h y) fun hy => List.mem_singleton.mp hy ▸ hx

@[simp] theorem content_nil (escaped : Bool) : content escaped [] = [] := rfl

theorem content_escape (escaped : Bool) {x : Input} (h : x.1 = FRAME_ESCAPE) (xs : List Input) :
    content escaped (x :: xs) = content true xs := if_pos h

theorem content_char (escaped : Bool) {x : Input} (h : x.1 ≠ FRAME_ESCAPE) (xs : List Input) :
    content escaped (x :: xs) = chars.value escaped x.1 :: content false xs := if_neg h

theorem stored_escape {x : Input} (h : x.1 = FRAME_ESCAPE) (xs : List Input) :
    stored (x :: xs) = stored xs := List.filter_cons_of_neg (by simpa using h)

theorem stored_char {x : Input} (h : x.1 ≠ FRAME_ESCAPE) (xs : List Input) :
    stored (x :: xs) = x :: stored xs := List.filter_cons_of_pos (by simpa using h)

theorem length_content (escaped : Bool) (body : List Input) :
    (content escaped body).length = (stored body).length := by
  induction body generalizing escaped with
  | nil => rfl
  | cons x xs ih =>
      by_cases hx : x.1 = FRAME_ESCAPE
      · rw [content_escape _ hx, stored_escape hx, ih]
      · rw [content_char _ hx, stored_char hx, List.length_cons, List.length_cons, ih]

namespace Slipdev

theorem receive_of_escape {x : Input} (h : x.1 = FRAME_ESCAPE) :
    slip.receive x = ({ slip with escaped := true }, []) := by
  obtain ⟨c, a⟩ := x
  obtain rfl : c = FRAME_ESCAPE := h
  rfl

/-- Before its end a frame hands nothing up. -/
theorem ttyrput_open (slip : Slipdev) (h : Open body) :
    (slip.ttyrput body).2 = [] ∧
      (slip.ttyrput body).1.escaped = chars.pending slip.escaped (body.map Prod.fst) := by
  induction body generalizing slip with
  | nil => exact ⟨rfl, rfl⟩
  | cons x xs ih =>
      obtain ⟨he, h⟩ := h.cons
      by_cases hx : x.1 = FRAME_ESCAPE
      · have hih := ih { slip with escaped := true } h
        rw [ttyrput, receive_of_escape hx, List.map_cons, Stuffing.pending_cons,
          decide_eq_true (show x.1 = chars.esc from hx)]
        exact ⟨hih.1, hih.2⟩
      · have hih := ih ({ slip with escaped := false }.store (chars.value slip.escaped x.1)
          x.2.buffer) h
        rw [store_escaped] at hih
        rw [ttyrput, receive_char slip he hx, List.map_cons, Stuffing.pending_cons,
          decide_eq_false (show ¬ x.1 = chars.esc from hx)]
        exact ⟨hih.1, hih.2⟩

/-- A block that is there goes round: it ends with the last bytes of the frame. -/
theorem ttyrput_filled (h : Open body) (hb : slip.curblk = some outmp) (hne : outmp.bytes ≠ [])
    (hlim : outmp.bytes.length ≤ outmp.lim) :
    ∃ bs, (slip.ttyrput body).1.curblk = some { outmp with bytes := bs } ∧
      bs <:+ outmp.bytes ++ content slip.escaped body ∧
      bs.length = (outmp.bytes.length + (stored body).length - 1) % outmp.lim + 1 := by
  have hpos : 0 < outmp.bytes.length := List.length_pos_iff.mpr hne
  induction body generalizing slip outmp with
  | nil =>
      refine ⟨outmp.bytes, hb, (List.append_nil outmp.bytes).symm ▸ List.suffix_refl _, ?_⟩
      rw [stored, List.filter_nil, List.length_nil, Nat.mod_eq_of_lt (by omega)]
      omega
  | cons x xs ih =>
      obtain ⟨he, h⟩ := h.cons
      by_cases hx : x.1 = FRAME_ESCAPE
      · rw [ttyrput, receive_of_escape hx, content_escape _ hx, stored_escape hx]
        exact @ih { slip with escaped := true } outmp h hb hne hlim hpos
      · have hst := @store_of_some { slip with escaped := false } _ hb
          (chars.value slip.escaped x.1) x.2.buffer
        rw [ttyrput, receive_char slip he hx, content_char _ hx, stored_char hx, List.length_cons]
        by_cases hfull : outmp.lim ≤ outmp.bytes.length
        · rw [if_pos hfull] at hst
          obtain ⟨bs, hbs, hsuf, hlen⟩ := ih h hst (by simp) (by simp; omega) (by simp)
          rw [store_escaped] at hsuf
          refine ⟨bs, hbs, hsuf.trans (List.suffix_append _ _), ?_⟩
          have hmod : (outmp.bytes.length + ((stored xs).length + 1) - 1) % outmp.lim =
              (stored xs).length % outmp.lim := by
            rw [show outmp.bytes.length + ((stored xs).length + 1) - 1 =
              (stored xs).length + outmp.lim by omega, Nat.add_mod_right]
          rw [hlen, hmod, List.length_singleton, Nat.add_sub_cancel_left]
        · rw [if_neg hfull] at hst
          obtain ⟨bs, hbs, hsuf, hlen⟩ := ih h hst (by simp) (by simp; omega) (by simp)
          rw [store_escaped] at hsuf
          refine ⟨bs, hbs, by simpa using hsuf, ?_⟩
          rw [hlen, List.length_append, List.length_singleton, Nat.add_assoc,
            Nat.add_comm 1 (stored xs).length]

/-- Without a block the first character that gets one starts it. -/
theorem ttyrput_empty (h : Open body) (hb : slip.curblk = none) :
    ((slip.ttyrput body).1.curblk = none ∧ ∀ x ∈ stored body, x.2.buffer = none) ∨
    ∃ bs lim, (slip.ttyrput body).1.curblk = some ⟨bs, lim, false⟩ ∧ bs ≠ [] ∧
      bs.length ≤ lim ∧ bs <:+ content slip.escaped body ∧
      (∃ x ∈ stored body, x.2.buffer ≠ none) ∧
      (bs.length = (stored body).length ↔
        ∃ x more, (stored body).head? = some x ∧ x.2.buffer = some more ∧
          (stored body).length ≤ SLIP_MAX + more) := by
  induction body generalizing slip with
  | nil => exact .inl ⟨hb, fun _ hx => absurd hx List.not_mem_nil⟩
  | cons x xs ih =>
      obtain ⟨he, h⟩ := h.cons
      by_cases hx : x.1 = FRAME_ESCAPE
      · rw [ttyrput, receive_of_escape hx, content_escape _ hx, stored_escape hx]
        exact @ih { slip with escaped := true } h hb
      · have hst := @store_of_none { slip with escaped := false } hb
          (chars.value slip.escaped x.1) x.2.buffer
        rw [ttyrput, receive_char slip he hx, content_char _ hx, stored_char hx, List.length_cons,
          List.head?_cons]
        cases hbuf : x.2.buffer with
        | none =>
            rw [hbuf] at hst
            rcases ih h hst with ⟨hn, hall⟩ | ⟨bs, lim, hbs, hne, hlim, hsuf, ⟨y, hy, hyb⟩, -⟩
            · refine .inl ⟨hn, fun y hy => ?_⟩
              rcases List.mem_cons.mp hy with rfl | hy
              · exact hbuf
              · exact hall y hy
            · rw [store_escaped] at hsuf
              refine .inr ⟨bs, lim, hbs, hne, hlim, hsuf.trans (List.suffix_cons _ _),
                ⟨y, List.mem_cons_of_mem x hy, hyb⟩, ?_⟩
              have hle := hsuf.length_le
              rw [length_content] at hle
              constructor
              · omega
              · rintro ⟨z, more, hz, hzb, -⟩
                obtain rfl : x = z := Option.some.inj hz
                rw [hbuf] at hzb
                exact absurd hzb.symm (Option.some_ne_none more)
        | some more =>
            have hpos : 0 < SLIP_MAX + more := Nat.add_pos_left (by decide) more
            rw [hbuf, Option.map_some] at hst
            obtain ⟨bs, hbs, hsuf, hlen⟩ := ttyrput_filled h hst (List.cons_ne_nil _ _) hpos
            rw [store_escaped] at hsuf
            rw [List.length_singleton, Nat.add_sub_cancel_left] at hlen
            dsimp only at hlen hsuf
            have hmod := Nat.mod_lt (stored xs).length hpos
            refine .inr ⟨bs, SLIP_MAX + more, hbs, ?_, by omega, hsuf,
              ⟨x, List.mem_cons_self, by rw [hbuf]; exact Option.some_ne_none more⟩, ?_⟩
            · rintro rfl
              exact absurd hlen (by simp)
            · rw [hlen]
              constructor
              · intro heq
                exact ⟨x, more, rfl, hbuf, by omega⟩
              · rintro ⟨y, more', hy, hyb, hle⟩
                obtain rfl : x = y := Option.some.inj hy
                obtain rfl : more = more' := Option.some.inj (hbuf.symm.trans hyb)
                rw [Nat.mod_eq_of_lt hle]

theorem Held.ttyrput_open (h : slip.Held) (ho : Open body) : (slip.ttyrput body).1.Held := by
  intro b' hb'
  cases hb : slip.curblk with
  | none =>
      rcases ttyrput_empty ho hb with ⟨hn, -⟩ | ⟨bs, lim, hbs, hne, hle, -⟩
      · rw [hn] at hb'
        exact absurd hb' nofun
      · obtain rfl := Option.some.inj (hbs.symm.trans hb')
        exact ⟨hne, hle⟩
  | some b =>
      obtain ⟨hne, hlim⟩ := h b hb
      obtain ⟨bs, hbs, -, hlen⟩ := ttyrput_filled ho hb hne hlim
      obtain rfl := Option.some.inj (hbs.symm.trans hb')
      have hpos : 0 < b.lim := Nat.lt_of_lt_of_le (List.length_pos_iff.mpr hne) hlim
      have hmod := Nat.mod_lt (b.bytes.length + (stored body).length - 1) hpos
      refine ⟨?_, by dsimp only; omega⟩
      rintro rfl
      exact absurd hlen (by simp)

/-- What the end of a frame does, from the block that it finds. -/
theorem frame_eq (slip : Slipdev) {f : Frame} (ho : Open f.body) :
    slip.frame f = (slip.ttyrput f.body).1.frameEnd f.fin := by
  rw [frame, ttyrput_append, (slip.ttyrput_open ho).1]
  simp only [ttyrput, receive_end, List.nil_append, List.append_nil]

/-- The stream from the middle of a frame on hands up what its frames do. -/
theorem ttyrput_frames (slip : Slipdev) (ho : Open body) (xs : List Input) :
    ((slip.ttyrput body).1.ttyrput xs).2 = slip.delivered (framesFrom body xs) := by
  induction xs generalizing slip body with
  | nil => rfl
  | cons x xs ih =>
      rw [framesFrom]
      split
      case isTrue hx =>
        obtain ⟨c, a⟩ := x
        obtain rfl : c = FRAME_END := hx
        have hih := ih (slip.frame ⟨body, a⟩).1 open_nil
        rw [delivered, ← hih, frame_eq slip (f := ⟨body, a⟩) ho]
        simp only [ttyrput, receive_end]
      case isFalse hx =>
        rw [← ih slip (ho.concat hx), ttyrput_append]
        have hr := (((slip.ttyrput body).1).ttyrput_open
          (show Open [x] from fun y hy => List.mem_singleton.mp hy ▸ hx)).1
        simp only [ttyrput, List.append_nil] at hr ⊢
        rw [hr, List.nil_append]

end Slipdev

/-- The bodies of the frames of a stream have no end in them. -/
theorem framesFrom_open (ho : Open body) {xs : List Input} {f : Frame}
    (hf : f ∈ framesFrom body xs) : Open f.body := by
  induction xs generalizing body with
  | nil => exact absurd hf List.not_mem_nil
  | cons x xs ih =>
      rw [framesFrom] at hf
      split at hf
      case isTrue =>
        rcases List.mem_cons.mp hf with rfl | hf
        · exact ho
        · exact ih open_nil hf
      case isFalse hx => exact ih (ho.concat hx) hf

end
end HydraAmix.Slip
