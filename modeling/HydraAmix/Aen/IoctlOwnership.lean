import HydraAmix.Aen.Ioctl

/-!
# Which ioctl messages the LANCE driver settles

A request is settled if no block is freed twice, touched after it was freed or
passed on, and exactly one answer goes back. Three commands read the data block
without a look whether there is one, one frees it and then lets the common end
free it again, and one has always answered when it gets to the common end.
-/
namespace HydraAmix.Aen
open Blocks Blocks.Heap

/-- The request keeps to the rules of ownership and is answered once; a failed
copy is freed. -/
def Settled {C : Type} (m : Request C) (r : Option Heap) : Prop :=
  ∃ h, r = some h ∧ h.broken = false ∧
    match m.kind with
    | .iocdata true _ => h.sent = [] ∧ h.place 0 = .freed
    | _ => h.sent.length = 1

/-- The length of the data after `pullupmsg`, of its first block if that failed. -/
def pulled (pullup : Bool) : List ℕ → Option ℕ
  | [] => none
  | [n] => some n
  | n :: ns => some (if pullup then n + ns.foldr (· + ·) 0 else n)

/-- The condition for one command. -/
def AenAllowed (env : IoctlEnv) (kind : Kind) (lens : List ℕ) : Cmd → Prop
  | .clearStatus => lens = []
  | .getStatus | .getConfig | .numberOfBoards => lens ≠ []
  | .setConfig =>
      if kind.transparent then lens ≠ []
      else pulled env.pullup lens = some env.configSize ∧
        ∃ k < 2 * (List.ofFn env.bound).count true, env.alloc k = false
  | .ifFlags | .other => True

/-- The copy failed or was a copyout, or the command allows the data. -/
def Allowed {C : Type} (allowed : Kind → List ℕ → C → Prop) (m : Request C) : Prop :=
  match m.kind with
  | .iocdata true _ | .iocdata false false => True
  | kind => allowed kind m.lens m.cmd

section
variable {h : Heap} {mp : ℕ}

/-- A whole message that nothing has happened to. -/
structure Fresh (h : Heap) : Prop where
  nodup : (0 :: h.cont 0).Nodup
  owned : ∀ b ∈ 0 :: h.cont 0, h.place b = .owned
  unsent : h.sent = []
  unbroken : h.broken = false
  later : 0 < h.next

theorem message_fresh (lens : List ℕ) : Fresh (message lens) where
  nodup := by
    refine List.nodup_cons.mpr ⟨fun hm => ?_, List.nodup_range'⟩
    have hle := (List.mem_range'_1.mp hm).1
    omega
  owned _ _ := rfl
  unsent := rfl
  unbroken := rfl
  later := Nat.succ_pos _

theorem Fresh.first (h₀ : Fresh h) : h.place 0 = .owned := h₀.owned 0 List.mem_cons_self

theorem setCont_owned (bs : List ℕ) (ho : h.place mp = .owned) :
    h.setCont mp bs = { h with cont := Function.update h.cont mp bs } := by
  rw [setCont, touch_owned ho]

theorem setCont_broken (hb : h.broken = true) (mp : ℕ) (bs : List ℕ) :
    (h.setCont mp bs).broken = true := touch_broken hb mp

theorem sendBack_fresh (h₀ : Fresh h) : (sendBack h).broken = false ∧ (sendBack h).sent = [0] := by
  rw [sendBack, touch_owned h₀.first, putnext_owned h₀.nodup h₀.owned]
  exact ⟨h₀.unbroken, by rw [h₀.unsent]; rfl⟩

theorem reply_fresh (h₀ : Fresh h) : (reply h 0).broken = false ∧ (reply h 0).sent = [0] := by
  obtain ⟨hnot, hn⟩ := List.nodup_cons.mp h₀.nodup
  have hmoved : moved h.place .freed (h.cont 0) 0 = .owned := (if_neg hnot).trans h₀.first
  have hfree := freemsg_owned (h := { h with cont := Function.update h.cont 0 [] }) hn fun b hb =>
    h₀.owned b (List.mem_cons_of_mem 0 hb)
  rw [reply, touch_owned h₀.first, setCont_owned [] h₀.first, hfree, touch_owned hmoved,
    putnext_owned]
  · exact ⟨h₀.unbroken, by dsimp only; rw [h₀.unsent]; rfl⟩
  · dsimp only
    rw [Function.update_self]
    exact List.nodup_singleton 0
  · dsimp only
    rw [Function.update_self]
    intro b hb
    rw [List.mem_singleton.mp hb]
    exact hmoved

/-- An answer on a message that is gone. -/
theorem reply_lost (ho : h.place mp ≠ .owned) : (reply h mp).broken = true :=
  putnext_broken (touch_broken (freemsg_broken (setCont_broken (touch_lost ho) mp []) _) 0) mp

/-- An answer on a message whose data is gone. -/
theorem reply_dangling {b : ℕ} {bs : List ℕ} (hcont : h.cont mp = b :: bs)
    (ho : h.place b ≠ .owned) : (reply h mp).broken = true := by
  refine putnext_broken (touch_broken ?_ 0) mp
  rw [show (h.touch mp).cont mp = b :: bs from hcont]
  exact foldl_leave_lost .freed (show ((h.touch mp).setCont mp []).place b ≠ .owned from ho) bs

theorem sendBack_place (h : Heap) : (sendBack h).place 0 = .passed := putnext_place _ 0

/-! ### Data that comes with a message -/

/-- A chain of blocks is linked to a message that nothing else has happened to. -/
theorem fresh_setCont {bs : List ℕ} (h0 : h.place 0 = .owned) (hn : (0 :: bs).Nodup)
    (ho : ∀ b ∈ bs, h.place b = .owned) (hs : h.sent = []) (hb : h.broken = false)
    (hl : 0 < h.next) : Fresh (h.setCont 0 bs) := by
  rw [setCont_owned bs h0]
  refine ⟨?_, fun b hb => ?_, hs, hb, hl⟩
  · dsimp only
    rw [Function.update_self]
    exact hn
  · dsimp only at hb ⊢
    rw [Function.update_self] at hb
    rcases List.mem_cons.mp hb with rfl | hb
    · exact h0
    · exact ho b hb

/-- `pullupmsg` leaves the message whole, and its first block with the length. -/
theorem pullupmsg_fresh (h₀ : Fresh h) (pullup : Bool) :
    Fresh (pullupmsg pullup h) ∧ (pullupmsg pullup h).asked = h.asked ∧
      ((pullupmsg pullup h).cont 0).head?.map (pullupmsg pullup h).len =
        pulled pullup ((h.cont 0).map h.len) := by
  rw [pullupmsg]
  split
  case h_1 b c bs hc =>
    rw [hc]
    split
    case isTrue hp =>
      have hnodup := h₀.nodup
      have howned := h₀.owned
      rw [hc] at hnodup howned
      simp only [List.nodup_cons, List.mem_cons, not_or] at hnodup
      obtain ⟨⟨h0b, h0c, h0⟩, ⟨hbc, hb⟩, hcn, hn⟩ := hnodup
      have hfree := freemsg_owned
        (h := { h with len := Function.update h.len b (total h.len (b :: c :: bs)) })
        (List.nodup_cons.mpr ⟨hcn, hn⟩) fun x hx =>
          howned x (List.mem_cons_of_mem 0 (List.mem_cons_of_mem b hx))
      have hmoved : ∀ x, x = 0 ∨ x = b → moved h.place .freed (c :: bs) x = .owned := by
        rintro x (rfl | rfl)
        · exact (if_neg fun hm => (List.mem_cons.mp hm).elim h0c h0).trans h₀.first
        · exact (if_neg fun hm => (List.mem_cons.mp hm).elim hbc hb).trans
            (howned x (List.mem_cons_of_mem 0 List.mem_cons_self))
      dsimp only
      rw [hfree]
      refine ⟨fresh_setCont (hmoved 0 (.inl rfl)) (List.nodup_cons.mpr
        ⟨fun hm => h0b (List.mem_singleton.mp hm), List.nodup_singleton b⟩)
        (fun x hx => hmoved x (.inr (List.mem_singleton.mp hx))) h₀.unsent h₀.unbroken h₀.later,
        rfl, ?_⟩
      rw [setCont_owned [b] (hmoved 0 (.inl rfl))]
      dsimp only
      rw [Function.update_self, List.head?_cons, Option.map_some, Function.update_self,
        List.map_cons, List.map_cons, pulled, if_pos hp, total, ← List.map_cons, List.foldr_map]
      · rfl
      · exact nofun
    case isFalse hp =>
      refine ⟨h₀, rfl, ?_⟩
      rw [hc, List.map_cons, List.map_cons, pulled, if_neg hp]
      · rfl
      · exact nofun
  case h_2 hc =>
    refine ⟨h₀, rfl, ?_⟩
    cases hcont : h.cont 0 with
    | nil => rfl
    | cons b bs =>
        cases bs with
        | nil => rfl
        | cons c bs => exact absurd hcont (hc b c bs)

/-- What is done with data of the right length, and where that leads. -/
theorem setData_spec (h₀ : Fresh h) (pullup : Bool) (size : ℕ) :
    ((setData pullup size h).1 = true ↔ pulled pullup ((h.cont 0).map h.len) = some size) ∧
      (setData pullup size h).2.place 0 = .passed ∧
      (setData pullup size h).2.asked = h.asked ∧
      ((setData pullup size h).1 = true → (setData pullup size h).2.broken = false ∧
        (setData pullup size h).2.sent = [0]) := by
  obtain ⟨h₁, hasked, hlen⟩ := pullupmsg_fresh h₀ pullup
  rw [← hlen, setData]
  generalize pullupmsg pullup h = h' at h₁ hasked
  cases hcont : h'.cont 0 with
  | nil =>
      exact ⟨⟨nofun, nofun⟩, sendBack_place h', (putnext_asked _ 0).trans hasked, nofun⟩
  | cons b bs =>
      have hnodup := h₁.nodup
      rw [hcont] at hnodup
      have h0b : (0 : ℕ) ≠ b := fun he => (List.nodup_cons.mp hnodup).1 (he ▸ List.mem_cons_self)
      have hb : h'.place b = .owned := h₁.owned b (by rw [hcont]; simp)
      dsimp only [List.head?_cons, Option.map_some]
      split
      case isTrue hne =>
        exact ⟨⟨nofun, fun he => absurd (Option.some.inj he) hne⟩, sendBack_place h',
          (putnext_asked _ 0).trans hasked, nofun⟩
      case isFalse heq =>
        refine ⟨⟨fun _ => congrArg some (not_not.mp heq), fun _ => rfl⟩, putnext_place _ 0,
          (putnext_asked _ 0).trans hasked, fun _ => ?_⟩
        have hfree := freemsg_owned (h := { h' with cont := Function.update h'.cont 0 [] })
          (List.nodup_singleton b) fun x hx => List.mem_singleton.mp hx ▸ hb
        have hmoved : moved h'.place .freed [b] 0 = .owned :=
          (if_neg fun hm => h0b (List.mem_singleton.mp hm)).trans h₁.first
        dsimp only
        rw [touch_owned hb, setCont_owned [] h₁.first,
          show ∀ h : Heap, h.freeb b = h.freemsg [b] from fun _ => rfl, hfree, putnext_owned]
        · exact ⟨h₁.unbroken, by dsimp only; rw [h₁.unsent]; rfl⟩
        · dsimp only
          rw [Function.update_self]
          exact List.nodup_singleton 0
        · dsimp only
          rw [Function.update_self]
          intro x hx
          rw [List.mem_singleton.mp hx]
          exact hmoved

/-! ### The acknowledgements of `AEN_SET_CONFIG` -/

theorem pass_fresh_block (alloc : ℕ → Bool) (h : Heap) (ha : alloc h.asked = true) :
    ∃ h', h.allocb alloc = (some h.next, h') ∧ (h'.pass h.next).broken = h.broken ∧
      (h'.pass h.next).sent = h.sent ∧ (h'.pass h.next).asked = h.asked + 1 := by
  refine ⟨_, if_pos ha, ?_⟩
  rw [Heap.pass]
  dsimp only
  rw [Function.update_self, foldl_leave .passed (List.nodup_singleton _) fun b hb => by
    rw [List.mem_singleton.mp hb]
    exact Function.update_self ..]
  exact ⟨rfl, rfl, rfl⟩

theorem allocb_fails (alloc : ℕ → Bool) (h : Heap) (ha : alloc h.asked = false) :
    h.allocb alloc = (none, { h with asked := h.asked + 1 }) :=
  if_neg (Bool.eq_false_iff.mp ha)

/-- The loop returns if an allocation fails, and else ends with a message that is
gone. -/
theorem acks_spec (alloc : ℕ → Bool) (bound : List Bool) (ho : h.place mp ≠ .owned) :
    (acks alloc bound mp h).2.2.broken = h.broken ∧ (acks alloc bound mp h).2.2.sent = h.sent ∧
      ((acks alloc bound mp h).1 = true ↔
        ∃ k < 2 * bound.count true, alloc (h.asked + k) = false) ∧
      ((acks alloc bound mp h).1 = false →
        (acks alloc bound mp h).2.2.place (acks alloc bound mp h).2.1 ≠ .owned) := by
  induction bound generalizing mp h with
  | nil => exact ⟨rfl, rfl, by simp [acks], fun _ => ho⟩
  | cons b bound ih =>
      cases b with
      | false =>
          obtain ⟨hb, hs, hiff, hend⟩ := ih ho
          rw [acks]
          exact ⟨hb, hs, by rw [hiff, List.count_cons_of_ne (by decide)], hend⟩
      | true =>
          rw [acks, List.count_cons_self]
          cases ha : alloc h.asked with
          | false =>
              rw [allocb_fails alloc h ha]
              exact ⟨rfl, rfl, ⟨fun _ => ⟨0, by omega, ha⟩, fun _ => rfl⟩, nofun⟩
          | true =>
              obtain ⟨h₁, hal, hb₁, hs₁, hk₁⟩ := pass_fresh_block alloc h ha
              rw [hal]
              dsimp only
              cases ha₁ : alloc (h.asked + 1) with
              | false =>
                  rw [allocb_fails alloc _ (by rw [hk₁]; exact ha₁)]
                  exact ⟨hb₁, hs₁, ⟨fun _ => ⟨1, by omega, ha₁⟩, fun _ => rfl⟩, nofun⟩
              | true =>
                  obtain ⟨h₂, hal₂, hb₂, hs₂, hk₂⟩ :=
                    pass_fresh_block alloc (h₁.pass h.next) (by rw [hk₁]; exact ha₁)
                  rw [hal₂]
                  dsimp only
                  obtain ⟨hb, hs, hiff, hend⟩ := ih (h := h₂.pass (h₁.pass h.next).next)
                    (by rw [pass_place]; exact nofun)
                  refine ⟨hb.trans (hb₂.trans hb₁), hs.trans (hs₂.trans hs₁), hiff.trans ?_, hend⟩
                  rw [hk₂, hk₁]
                  constructor
                  · rintro ⟨k, hk, hf⟩
                    exact ⟨k + 2, by omega, by rw [← hf]; congr 1; omega⟩
                  · rintro ⟨k, hk, hf⟩
                    rcases k with _ | _ | k
                    · rw [Nat.add_zero, ha] at hf
                      exact absurd hf nofun
                    · rw [ha₁] at hf
                      exact absurd hf nofun
                    · exact ⟨k, by omega, by rw [← hf]; congr 1; omega⟩

/-! ### The commands -/

/-- One answer, and nothing broken. -/
def Answered (r : Option Heap) : Prop := ∃ h, r = some h ∧ h.broken = false ∧ h.sent.length = 1

theorem answered_some {h : Heap} (ha : h.broken = false ∧ h.sent = [0]) : Answered (some h) :=
  ⟨h, rfl, ha.1, by rw [ha.2]; rfl⟩

theorem not_answered {h : Heap} (hb : h.broken = true) : ¬ Answered (some h) := by
  rintro ⟨h', he, hb', -⟩
  rw [← Option.some.inj he, hb] at hb'
  exact absurd hb'.symm Bool.false_ne_true

theorem answered_reply (h₀ : Fresh h) : Answered (some (reply h 0)) :=
  answered_some (reply_fresh h₀)

theorem getData_iff (env : IoctlEnv) (kind : Kind) (h₀ : Fresh h) :
    Answered (getData env kind h) ↔ h.cont 0 ≠ [] := by
  rw [getData]
  split
  case h_1 hc => exact ⟨fun ⟨_, he, _⟩ => absurd he nofun, fun hne => absurd hc hne⟩
  case h_2 b bs hc =>
    refine ⟨fun _ => by rw [hc]; exact List.cons_ne_nil b bs, fun _ => ?_⟩
    have hnodup := h₀.nodup
    have howned := h₀.owned
    rw [hc] at hnodup howned
    obtain ⟨hnot, hn⟩ := List.nodup_cons.mp hnodup
    have h0 : moved h.place .freed (b :: bs) 0 = .owned := (if_neg hnot).trans h₀.first
    rw [touch_owned (howned b (by simp)), freemsg_owned hn fun x hx =>
      howned x (List.mem_cons_of_mem 0 hx)]
    cases ha : env.alloc h.asked with
    | false =>
        rw [allocb_fails env.alloc { h with place := moved h.place .freed (b :: bs) } ha]
        exact answered_reply (fresh_setCont h0 (List.nodup_singleton 0) nofun h₀.unsent
          h₀.unbroken h₀.later)
    | true =>
        have hl := h₀.later
        have hne : (0 : ℕ) ≠ h.next := by omega
        rw [allocb, if_pos ha]
        dsimp only
        have hnew : Function.update (moved h.place .freed (b :: bs)) h.next .owned h.next =
            .owned := Function.update_self ..
        have h₁ := @fresh_setCont { h with
            place := Function.update (moved h.place .freed (b :: bs)) h.next .owned
            cont := Function.update h.cont h.next []
            next := h.next + 1
            asked := h.asked + 1 } [h.next]
          (by dsimp only; rw [Function.update_of_ne hne]; exact h0)
          (List.nodup_cons.mpr ⟨fun hm => hne (List.mem_singleton.mp hm), List.nodup_singleton _⟩)
          (fun x hx => by rw [List.mem_singleton.mp hx]; exact hnew) h₀.unsent h₀.unbroken
          (Nat.succ_pos _)
        rw [touch_owned (h₁.owned h.next (by
          rw [setCont_owned _ (by dsimp only; rw [Function.update_of_ne hne]; exact h0)]
          dsimp only
          rw [Function.update_self]
          simp))]
        split
        · exact answered_some (sendBack_fresh h₁)
        · exact answered_reply h₁

theorem configure_iff (env : IoctlEnv) (h₀ : Fresh h) (hask : h.asked = 0) :
    Answered (some (configure env h)) ↔
      pulled env.pullup ((h.cont 0).map h.len) = some env.configSize ∧
        ∃ k < 2 * (List.ofFn env.bound).count true, env.alloc k = false := by
  obtain ⟨hiff, hplace, hasked, hgood⟩ := setData_spec h₀ env.pullup env.configSize
  have hlost : (setData env.pullup env.configSize h).2.place 0 ≠ .owned := by
    rw [hplace]
    decide
  rw [← hiff, configure]
  cases hset : setData env.pullup env.configSize h with
  | mk valid h' =>
      rw [hset] at hlost hasked hgood
      cases valid with
      | false => exact ⟨fun ha => absurd ha (not_answered (reply_lost hlost)), fun hv => absurd hv.1 nofun⟩
      | true =>
          obtain ⟨hb, hs⟩ := hgood rfl
          obtain ⟨hb', hs', hk, hend⟩ := acks_spec env.alloc (List.ofFn env.bound) hlost
          dsimp only at hasked hb hs hb' hs' hk hend ⊢
          rw [hasked, hask] at hk
          simp only [Nat.zero_add] at hk
          rw [← hk]
          cases hacks : acks env.alloc (List.ofFn env.bound) 0 h' with
          | mk returned r =>
              rw [hacks] at hb' hs' hend
              cases returned with
              | true =>
                  exact ⟨fun _ => ⟨rfl, rfl⟩, fun _ => answered_some ⟨hb'.trans hb, hs'.trans hs⟩⟩
              | false =>
                  exact ⟨fun ha => absurd ha (not_answered (reply_lost (hend rfl))),
                    fun hv => absurd hv.2 nofun⟩

theorem message_cont (lens : List ℕ) : (message lens).cont 0 = [] ↔ lens = [] := by
  change List.range' 1 lens.length = [] ↔ lens = []
  rw [List.range'_eq_nil_iff, List.length_eq_zero_iff]

theorem message_lens (lens : List ℕ) :
    ((message lens).cont 0).map (message lens).len = lens := by
  change (List.range' 1 lens.length).map (message lens).len = lens
  refine List.ext_getElem (by rw [List.length_map, List.length_range']) fun k hk hk' => ?_
  rw [List.getElem_map, List.getElem_range', Nat.one_mul]
  change (if 1 + k = 0 then 0 else lens.getD (1 + k - 1) 0) = lens[k]
  rw [if_neg (by omega), Nat.add_sub_cancel_left, List.getD_eq_getElem?_getD,
    List.getElem?_eq_getElem hk', Option.getD_some]

/-- A copy request for data that stands behind the message. -/
theorem copyin_iff (h₀ : Fresh h) :
    Answered (match h.cont 0 with
      | [] => none
      | b :: _ => some (sendBack (h.touch b))) ↔ h.cont 0 ≠ [] := by
  cases hc : h.cont 0 with
  | nil => exact ⟨fun ⟨_, he, _⟩ => absurd he nofun, fun hne => absurd rfl hne⟩
  | cons b bs =>
      refine ⟨fun _ => List.cons_ne_nil b bs, fun _ => ?_⟩
      dsimp only
      rw [touch_owned (h₀.owned b (by rw [hc]; simp))]
      exact answered_some (sendBack_fresh h₀)

theorem aenCommand_iff (env : IoctlEnv) (kind : Kind) (lens : List ℕ) (c : Cmd) :
    Answered (aenCommand env kind (message lens) c) ↔ AenAllowed env kind lens c := by
  have h₀ := message_fresh lens
  have hdata : Answered (getData env kind (message lens)) ↔ lens ≠ [] := by
    rw [getData_iff env kind h₀, ne_eq, message_cont]
  cases c with
  | getStatus => exact hdata
  | getConfig => exact hdata
  | numberOfBoards => exact hdata
  | ifFlags => exact iff_true_intro (answered_some (sendBack_fresh h₀))
  | other => exact iff_true_intro (answered_reply h₀)
  | clearStatus =>
      rw [aenCommand, AenAllowed, ← message_cont]
      cases hc : (message lens).cont 0 with
      | nil => exact iff_of_true (answered_reply h₀) rfl
      | cons b bs =>
          have hlost : ((message lens).freemsg (b :: bs)).place b ≠ .owned := by
            rw [show ((message lens).freemsg (b :: bs)).place b = .freed from
              (foldl_leave_place .freed _ b).trans (if_pos List.mem_cons_self)]
            decide
          have hcont : ((message lens).freemsg (b :: bs)).cont 0 = b :: bs := by
            have howned := h₀.owned
            have hn := h₀.nodup
            rw [hc] at howned hn
            rw [freemsg_owned (List.nodup_cons.mp hn).2 fun x hx =>
              howned x (List.mem_cons_of_mem 0 hx)]
            exact hc
          exact iff_of_false (not_answered (reply_dangling hcont hlost)) (List.cons_ne_nil b bs)
  | setConfig =>
      rw [aenCommand, AenAllowed]
      split
      · exact (copyin_iff h₀).trans (not_congr (message_cont lens))
      · rw [configure_iff env h₀ rfl, message_lens]

/-- The cases before the switch, for any of the two drivers. -/
theorem settled_iff {C : Type} {command : Kind → Heap → C → Option Heap}
    {allowed : Kind → List ℕ → C → Prop}
    (hcommand : ∀ kind lens c, Answered (command kind (message lens) c) ↔ allowed kind lens c)
    (m : Request C) : Settled m (ioctl command m) ↔ Allowed allowed m := by
  obtain ⟨kind, c, lens⟩ := m
  have h₀ := message_fresh lens
  cases kind with
  | ioctl transparent => exact hcommand (.ioctl transparent) lens c
  | iocdata rval priv =>
      cases rval with
      | true =>
          obtain ⟨hnot, hn⟩ := List.nodup_cons.mp h₀.nodup
          refine iff_true_intro ⟨_, rfl, ?_⟩
          rw [freemsg_owned hn fun x hx => h₀.owned x (List.mem_cons_of_mem 0 hx), freeb, leave,
            touch_owned ((if_neg hnot).trans h₀.first)]
          refine ⟨rfl, rfl, ?_⟩
          dsimp only
          rw [Function.update_self]
      | false =>
          cases priv with
          | false => exact iff_true_intro (answered_reply h₀)
          | true => exact hcommand (.iocdata false true) lens c

end

end HydraAmix.Aen
