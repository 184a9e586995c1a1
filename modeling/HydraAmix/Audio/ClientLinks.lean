import HydraAmix.Audio.Clients

/-!
# No channel outlives its client, if no attached client is closed

What the driver does to the links between channels and clients is one of five
things: a client comes, goes, moves to another port, is attached or is detached.
Everything else leaves them as they are. All but the second keep them right;
`audioclose` does not look whether the client that it frees is attached.
-/
namespace HydraAmix.Audio.Clients
open Schedule

/-! ### The links -/

/-- What links channels and clients. -/
structure Links where
  clients : List ℕ
  qPtr : ℕ → Option ℕ
  attached : ℕ → Bool
  ports : ℕ → Fin 4
  q : ℕ → ℕ
  client : Fin 4 → Option ℕ
  size : Fin 4 → ℕ

namespace Links

/-- The links are right, a stream has a client of its own, the client of a channel
is attached to that one, and a channel in use has its buffers. -/
structure Sound (l : Links) : Prop where
  client : ∀ i acl, l.client i = some acl → acl ∈ l.clients ∧ (l.qPtr (l.q acl)).isSome
  attached : ∀ acl ∈ l.clients, l.attached acl = true → l.client (l.ports acl) = some acl
  back : ∀ i acl, l.client i = some acl → l.attached acl = true ∧ l.ports acl = i
  stream : ∀ q acl, l.qPtr q = some acl → acl ∈ l.clients ∧ l.q acl = q
  sized : ∀ i acl, l.client i = some acl → l.size i ≠ 0

/-- A client comes. -/
def come (l : Links) (q acl : ℕ) (i : Fin 4) : Links :=
  { l with
    clients := acl :: l.clients
    qPtr := Function.update l.qPtr q (some acl)
    attached := Function.update l.attached acl false
    ports := Function.update l.ports acl i
    q := Function.update l.q acl q }

/-- A client goes. -/
def go (l : Links) (q acl : ℕ) : Links :=
  { l with clients := l.clients.erase acl, qPtr := Function.update l.qPtr q none }

/-- A client moves to another port. -/
def move (l : Links) (acl : ℕ) (i : Fin 4) : Links :=
  { l with ports := Function.update l.ports acl i }

/-- A client is attached to a channel. -/
def attach (l : Links) (acl : ℕ) (i : Fin 4) (n : ℕ) : Links :=
  { l with
    attached := Function.update l.attached acl true
    ports := Function.update l.ports acl i
    client := Function.update l.client i (some acl)
    size := Function.update l.size i n }

/-- The client of a channel is detached. -/
def detach (l : Links) (acl : ℕ) (i : Fin 4) : Links :=
  { l with
    attached := Function.update l.attached acl false
    client := Function.update l.client i none }

variable {l : Links} {q acl : ℕ} {i : Fin 4}

theorem Sound.come (h : l.Sound) (hnew : acl ∉ l.clients) : (l.come q acl i).Sound := by
  have hne : ∀ c, c ∈ l.clients → c ≠ acl := fun c hc he => hnew (he ▸ hc)
  constructor
  · intro j c hc
    obtain ⟨hmem, hopen⟩ := h.client j c hc
    refine ⟨List.mem_cons_of_mem acl hmem, ?_⟩
    change (Function.update l.qPtr q (some acl) (Function.update l.q acl q c)).isSome
    rw [Function.update_of_ne (hne c hmem)]
    by_cases hq : l.q c = q
    · rw [hq, Function.update_self]
      rfl
    · rwa [Function.update_of_ne hq]
  · intro c hc ha
    change Function.update l.attached acl false c = true at ha
    change l.client (Function.update l.ports acl i c) = some c
    by_cases he : c = acl
    · rw [he, Function.update_self] at ha
      exact absurd ha Bool.false_ne_true
    · rw [Function.update_of_ne he] at ha ⊢
      exact h.attached c ((List.mem_cons.mp hc).resolve_left he) ha
  · intro j c hc
    have hc' := hne c (h.client j c hc).1
    change Function.update l.attached acl false c = true ∧ Function.update l.ports acl i c = j
    rw [Function.update_of_ne hc', Function.update_of_ne hc']
    exact h.back j c hc
  · intro p c hc
    change Function.update l.qPtr q (some acl) p = some c at hc
    change c ∈ acl :: l.clients ∧ Function.update l.q acl q c = p
    by_cases hp : p = q
    · rw [hp, Function.update_self, Option.some.injEq] at hc
      subst hc
      exact ⟨List.mem_cons_self, by rw [Function.update_self, hp]⟩
    · rw [Function.update_of_ne hp] at hc
      obtain ⟨hmem, hq⟩ := h.stream p c hc
      exact ⟨List.mem_cons_of_mem acl hmem, by rwa [Function.update_of_ne (hne c hmem)]⟩
  · exact h.sized

theorem Sound.move (h : l.Sound) (ha : l.attached acl = false) : (l.move acl i).Sound := by
  have hne : ∀ c, l.attached c = true → c ≠ acl := by
    rintro c hc rfl
    exact Bool.false_ne_true (ha.symm.trans hc)
  refine ⟨h.client, ?_, ?_, h.stream, h.sized⟩
  · intro c hc hac
    change l.client (Function.update l.ports acl i c) = some c
    rw [Function.update_of_ne (hne c hac)]
    exact h.attached c hc hac
  · intro j c hc
    obtain ⟨hac, hj⟩ := h.back j c hc
    refine ⟨hac, ?_⟩
    change Function.update l.ports acl i c = j
    rwa [Function.update_of_ne (hne c hac)]

theorem Sound.attach (h : l.Sound) (hmem : acl ∈ l.clients) (hq : (l.qPtr (l.q acl)).isSome)
    (ha : l.attached acl = false) (hi : l.client i = none) {n : ℕ} (hn : n ≠ 0) :
    (l.attach acl i n).Sound := by
  have hne : ∀ c, l.attached c = true → c ≠ acl := by
    rintro c hc rfl
    exact Bool.false_ne_true (ha.symm.trans hc)
  have hport : ∀ j c, l.client j = some c → j ≠ i := by
    rintro j c hc rfl
    exact Option.some_ne_none c (hc.symm.trans hi)
  constructor
  · intro j c hc
    change Function.update l.client i (some acl) j = some c at hc
    change c ∈ l.clients ∧ (l.qPtr (l.q c)).isSome
    by_cases hj : j = i
    · rw [hj, Function.update_self, Option.some.injEq] at hc
      subst hc
      exact ⟨hmem, hq⟩
    · rw [Function.update_of_ne hj] at hc
      exact h.client j c hc
  · intro c hc hac
    change Function.update l.attached acl true c = true at hac
    change Function.update l.client i (some acl) (Function.update l.ports acl i c) = some c
    by_cases he : c = acl
    · rw [he, Function.update_self, Function.update_self]
    · rw [Function.update_of_ne he] at hac ⊢
      have hown := h.attached c hc hac
      rwa [Function.update_of_ne (hport _ c hown)]
  · intro j c hc
    change Function.update l.client i (some acl) j = some c at hc
    change Function.update l.attached acl true c = true ∧ Function.update l.ports acl i c = j
    by_cases hj : j = i
    · rw [hj, Function.update_self, Option.some.injEq] at hc
      subst hc
      exact ⟨Function.update_self .., by rw [Function.update_self, hj]⟩
    · rw [Function.update_of_ne hj] at hc
      obtain ⟨hac, hp⟩ := h.back j c hc
      rw [Function.update_of_ne (hne c hac), Function.update_of_ne (hne c hac)]
      exact ⟨hac, hp⟩
  · exact h.stream
  · intro j c hc
    change Function.update l.client i (some acl) j = some c at hc
    change Function.update l.size i n j ≠ 0
    by_cases hj : j = i
    · rwa [hj, Function.update_self]
    · rw [Function.update_of_ne hj] at hc ⊢
      exact h.sized j c hc

theorem Sound.detach (h : l.Sound) (hi : l.client i = some acl) : (l.detach acl i).Sound := by
  have hport : ∀ j c, Function.update l.client i none j = some c →
      l.client j = some c ∧ c ≠ acl := by
    intro j c hc
    by_cases hj : j = i
    · rw [hj, Function.update_self] at hc
      exact absurd hc.symm (Option.some_ne_none c)
    · rw [Function.update_of_ne hj] at hc
      refine ⟨hc, ?_⟩
      rintro rfl
      exact hj ((h.back j c hc).2.symm.trans (h.back i c hi).2)
  constructor
  · intro j c hc
    exact h.client j c (hport j c hc).1
  · intro c hc hac
    change Function.update l.attached acl false c = true at hac
    change Function.update l.client i none (l.ports c) = some c
    by_cases he : c = acl
    · rw [he, Function.update_self] at hac
      exact absurd hac Bool.false_ne_true
    · rw [Function.update_of_ne he] at hac
      have hown := h.attached c hc hac
      rw [Function.update_of_ne, hown]
      intro hp
      rw [hp, hi, Option.some.injEq] at hown
      exact he hown.symm
  · intro j c hc
    obtain ⟨hown, hne⟩ := hport j c hc
    change Function.update l.attached acl false c = true ∧ l.ports c = j
    rw [Function.update_of_ne hne]
    exact h.back j c hown
  · exact h.stream
  · intro j c hc
    exact h.sized j c (hport j c hc).1

/-- No client of the stream is attached. -/
def Unattached (l : Links) (q : ℕ) : Prop :=
  ∀ acl ∈ l.clients, l.q acl = q → l.attached acl = false

theorem Sound.go (h : l.Sound) (hq : l.qPtr q = some acl) (hfree : l.Unattached q) :
    (l.go q acl).Sound := by
  have hacl := (h.stream q acl hq).2
  have hother : ∀ j c, l.client j = some c → l.q c ≠ q := by
    intro j c hc hcq
    exact Bool.false_ne_true ((hfree c (h.client j c hc).1 hcq).symm.trans (h.back j c hc).1)
  have hstays : ∀ c, c ∈ l.clients → l.q c ≠ q → c ∈ l.clients.erase acl := by
    intro c hc hcq
    refine (List.mem_erase_of_ne ?_).mpr hc
    rintro rfl
    exact hcq hacl
  refine ⟨?_, ?_, h.back, ?_, h.sized⟩
  · intro j c hc
    obtain ⟨hmem, hopen⟩ := h.client j c hc
    have hcq := hother j c hc
    refine ⟨hstays c hmem hcq, ?_⟩
    change (Function.update l.qPtr q none (l.q c)).isSome
    rwa [Function.update_of_ne hcq]
  · intro c hc
    exact h.attached c (List.mem_of_mem_erase hc)
  · intro p c hc
    change Function.update l.qPtr q none p = some c at hc
    by_cases hp : p = q
    · rw [hp, Function.update_self] at hc
      exact absurd hc.symm (Option.some_ne_none c)
    · rw [Function.update_of_ne hp] at hc
      obtain ⟨hmem, hcp⟩ := h.stream p c hc
      exact ⟨hstays c hmem (hcp.trans_ne hp), hcp⟩

/-- An attached client leaves its channel behind when it goes. -/
theorem Sound.unattached_of_go (acl : ℕ) (h : l.Sound)
    (hgone : ∀ i c, l.client i = some c → ((l.go q acl).qPtr (l.q c)).isSome) :
    l.Unattached q := by
  intro c hc hcq
  by_contra hatt
  have hown := h.attached c hc (Bool.eq_true_of_not_eq_false hatt)
  have hopen := hgone _ c hown
  change (Function.update l.qPtr q none (l.q c)).isSome at hopen
  rw [hcq, Function.update_self] at hopen
  exact Bool.false_ne_true hopen

end Links

/-! ### What the driver does to them -/

namespace State

/-- The links of a state. -/
def links (s : State) : Links where
  clients := s.clients
  qPtr := s.qPtr
  attached := Client.attached ∘ s.client
  ports := Client.ports ∘ s.client
  q := Client.q ∘ s.client
  client := Channel.client ∘ s.channel
  size := Channel.size ∘ s.channel

variable {s : State} {q acl mp : ℕ} {i : Fin 4}

theorem links_setClient (s : State) (acl : ℕ) (f : Client → Client) :
    (s.setClient acl f).links = { s.links with
      attached := Function.update s.links.attached acl (f (s.client acl)).attached
      ports := Function.update s.links.ports acl (f (s.client acl)).ports
      q := Function.update s.links.q acl (f (s.client acl)).q } := by
  simp only [links, setClient, Function.comp_update]

theorem links_setChannel (s : State) (i : Fin 4) (f : Channel → Channel) :
    (s.setChannel i f).links = { s.links with
      client := Function.update s.links.client i (f (s.channel i)).client
      size := Function.update s.links.size i (f (s.channel i)).size } := by
  simp only [links, setChannel, Function.comp_update]

theorem links_setClient_of {f : Client → Client} (ha : ∀ c, (f c).attached = c.attached)
    (hp : ∀ c, (f c).ports = c.ports) (hq : ∀ c, (f c).q = c.q) :
    (s.setClient acl f).links = s.links := by
  rw [links_setClient, ha, hp, hq]
  simp [links, Function.comp_def]

theorem links_setChannel_of {f : Channel → Channel} (hc : ∀ ach, (f ach).client = ach.client)
    (hs : ∀ ach, (f ach).size = ach.size) : (s.setChannel i f).links = s.links := by
  rw [links_setChannel, hc, hs]
  simp [links, Function.comp_def]

theorem links_setChannelClient (s : State) (i : Fin 4) (c : Option ℕ) :
    (s.setChannel i fun ach => { ach with client := c }).links =
      { s.links with client := Function.update s.links.client i c } := by
  rw [links_setChannel]
  simp [links, Function.comp_def]

theorem links_setAttached (s : State) (acl : ℕ) (a : Bool) :
    (s.setClient acl fun c => { c with attached := a }).links =
      { s.links with attached := Function.update s.links.attached acl a } := by
  rw [links_setClient]
  simp [links, Function.comp_def]

theorem links_setPorts (s : State) (acl : ℕ) (i : Fin 4) (a : Bool) :
    (s.setClient acl fun c => { c with ports := i, attached := a }).links =
      { s.links with
        attached := Function.update s.links.attached acl a
        ports := Function.update s.links.ports acl i } := by
  rw [links_setClient]
  simp [links, Function.comp_def]

@[simp] theorem links_setMp (s : State) (acl : ℕ) (mp : Option ℕ) :
    (s.setMp acl mp).links = s.links :=
  links_setClient_of (fun _ => rfl) (fun _ => rfl) fun _ => rfl

@[simp] theorem links_setQueue (s : State) (q : ℕ) (l : List ℕ) :
    (s.setQueue q l).links = s.links := rfl

@[simp] theorem links_keepMp (s : State) (prev : Option ℕ) (mp : ℕ) :
    (s.keepMp prev mp).links = s.links := by
  cases prev with
  | none => rfl
  | some acl => exact links_setMp s acl (some mp)

@[simp] theorem links_fillBuffer (s : State) (acl len : ℕ) :
    (s.fillBuffer acl len).2.links = s.links :=
  links_setChannel_of (fun _ => rfl) fun _ => rfl

@[simp] theorem links_loadupDma (s : State) (acl : ℕ) : (s.loadupDma acl).links = s.links := by
  apply links_setChannel_of
  · intro ach
    split <;> rfl
  · intro ach
    split <;> rfl

@[simp] theorem links_release (s : State) (i : Fin 4) :
    (s.setChannel i releaseChannelBuffer).links = s.links := by
  apply links_setChannel_of
  · intro ach
    unfold releaseChannelBuffer
    split <;> rfl
  · intro ach
    unfold releaseChannelBuffer
    split <;> rfl

theorem links_fillQueue (q acl : ℕ) (l : List ℕ) (s : State) :
    (fillQueue q acl l s).links = s.links := by
  induction l generalizing s with
  | nil => rfl
  | cons mp l ih =>
      unfold fillQueue
      dsimp only
      split
      · rw [links_setMp, links_setQueue, links_fillBuffer]
      · rw [ih, links_fillBuffer]

@[simp] theorem links_fillWaiting (s : State) (acl : ℕ) : (s.fillWaiting acl).links = s.links := by
  unfold fillWaiting
  dsimp only
  split
  · exact links_fillQueue ..
  · split
    · rw [links_fillQueue, links_setMp, links_fillBuffer]
    · exact links_fillBuffer ..

/-! ### A client gets a channel -/

theorem freePort_free (h : s.freePort acl = some i) : (s.channel i).client = none := by
  unfold freePort at h
  split at h
  case isTrue hfree =>
    rwa [← Option.some.inj h]
  case isFalse =>
    have hdec := List.find?_some h
    exact of_decide_eq_true hdec

/-- `allocate_channel_buffers` fails and does nothing, or the channel has buffers. -/
theorem allocate_cases (s : State) (acl : ℕ) :
    s.allocateChannelBuffers acl = (true, s) ∨
      ∃ t n, s.allocateChannelBuffers acl = (false, t) ∧ n ≠ 0 ∧ t.client = s.client ∧
        t.links = { s.links with size := Function.update s.links.size (s.client acl).ports n } := by
  unfold allocateChannelBuffers
  dsimp only
  split
  · split
    · exact .inl rfl
    · refine .inr ⟨_, AUDIO_BUFFER_SIZE, rfl, by decide, rfl, ?_⟩
      refine (links_setChannel s (s.client acl).ports fun ach => { ach with
        size := AUDIO_BUFFER_SIZE, nbytes := fun _ => 0, pending := 0 }).trans ?_
      simp [links, Function.comp_def]
  case isFalse hsize =>
    refine .inr ⟨s, (s.channel (s.client acl).ports).size, rfl, hsize, rfl, ?_⟩
    simp [links, Function.comp_def]

/-- `grab_channel` leaves the links right, or they are once the client is set. -/
theorem grabChannel_cases (h : s.links.Sound) (hq : s.qPtr q = some acl) :
    ∃ t, s.grabChannel acl = (true, t) ∧ t.links.Sound ∨
      s.grabChannel acl = (false, t) ∧ (t.setChannel (t.client acl).ports
        fun ach => { ach with client := some acl }).links.Sound := by
  unfold grabChannel
  dsimp only
  by_cases hatt : (s.client acl).attached = true
  · have hown := h.attached acl (h.stream q acl hq).1 hatt
    have halloc : s.allocateChannelBuffers acl = (false, s) := if_neg (h.sized _ acl hown)
    rw [if_pos hatt, halloc]
    refine ⟨s, .inr ⟨rfl, ?_⟩⟩
    have hsame : (s.setChannel (s.client acl).ports
        fun ach => { ach with client := some acl }).links = s.links := by
      rw [links_setChannelClient]
      change { s.links with
        client := Function.update s.links.client (s.links.ports acl) (some acl) } = s.links
      rw [← hown, Function.update_eq_self]
    rwa [hsame]
  · rw [if_neg hatt]
    cases hport : s.freePort acl with
    | none => exact ⟨s, .inl ⟨rfl, h⟩⟩
    | some i =>
        have hfree := freePort_free hport
        have hmem := (h.stream q acl hq).1
        have hopen : (s.links.qPtr (s.links.q acl)).isSome := by
          rw [(h.stream q acl hq).2]
          exact Option.isSome_iff_exists.mpr ⟨acl, hq⟩
        have hno : s.links.attached acl = false := Bool.eq_false_of_not_eq_true hatt
        have hclient :
            (s.setClient acl fun c => { c with ports := i, attached := true }).client acl =
            { s.client acl with ports := i, attached := true } := Function.update_self ..
        obtain halloc | ⟨t, n, halloc, hn, htc, htl⟩ := allocate_cases
          (s.setClient acl fun c => { c with ports := i, attached := true }) acl
        · dsimp only
          rw [halloc]
          refine ⟨_, .inl ⟨rfl, ?_⟩⟩
          have hmove := h.move (i := i) hno
          rw [links_setAttached, links_setPorts]
          change { s.links with
            attached := Function.update (Function.update s.links.attached acl true) acl false
            ports := Function.update s.links.ports acl i }.Sound
          rwa [Function.update_idem, ← hno, Function.update_eq_self]
        · dsimp only
          rw [halloc]
          refine ⟨t, .inr ⟨rfl, ?_⟩⟩
          have hattach := h.attach hmem hopen hno hfree hn
          rw [hclient] at htl
          rw [links_setChannelClient, htl, links_setPorts, htc, hclient]
          exact hattach

theorem postaudio_sound (q mp : ℕ) (h : s.links.Sound) : (s.postaudio q mp).2.links.Sound := by
  unfold postaudio
  split
  · exact h
  case h_2 acl hq =>
    obtain ⟨t, ⟨hg, ht⟩ | ⟨hg, ht⟩⟩ := grabChannel_cases h hq
    · rw [hg]
      exact ht
    · rw [hg]
      dsimp only
      split
      · rw [links_loadupDma]
        exact (congrArg Links.Sound (links_fillBuffer ..)).mpr ht
      · exact ht

/-! ### The procedures -/

theorem postQueue_sound (q acl : ℕ) (l : List ℕ) (h : s.links.Sound) :
    (postQueue q acl l s).links.Sound := by
  induction l generalizing s with
  | nil => exact h
  | cons mp l ih =>
      have hpost := postaudio_sound q mp h
      unfold postQueue
      split
      case h_1 t ht =>
        rw [ht] at hpost
        rwa [links_setMp, links_setQueue]
      case h_2 t ht =>
        rw [ht] at hpost
        exact ih hpost

theorem audiowsrv_sound (h : s.links.Sound) : (s.audiowsrv q).links.Sound := by
  unfold audiowsrv
  split
  · exact h
  case h_2 acl _ =>
    split
    · exact postQueue_sound q acl (s.queue q) h
    case h_2 mp _ =>
      have hpost := postaudio_sound q mp h
      split
      case h_1 t ht =>
        rwa [ht] at hpost
      case h_2 t ht =>
        rw [ht] at hpost
        apply postQueue_sound
        rwa [links_setMp]

theorem giveUp_sound (h : s.links.Sound) (hi : s.links.client i = some acl) :
    (s.giveUp i acl).links.Sound := by
  have hdetach := h.detach hi
  unfold giveUp
  dsimp only
  rwa [links_setAttached, links_setChannelClient, links_loadupDma, links_fillBuffer]

theorem channelIntr_sound (h : s.links.Sound) : (s.channelIntr i).links.Sound := by
  unfold channelIntr
  split
  · rwa [links_release]
  case h_2 acl hi =>
    split
    · have hcount :
          (s.setClient acl fun c => { c with repeats := c.repeats - 1 }).links = s.links :=
        links_setClient_of (fun _ => rfl) (fun _ => rfl) fun _ => rfl
      rwa [hcount]
    · dsimp only
      have hsame : ((s.setChannel i releaseChannelBuffer).fillWaiting acl).links = s.links := by
        rw [links_fillWaiting, links_release]
      split
      · rwa [links_loadupDma, hsame]
      · apply giveUp_sound
        · rwa [hsame]
        · rw [hsame]
          exact hi

theorem search_sound (prev : Option ℕ) (l : List ℕ) (h : s.links.Sound) :
    (search prev l s).links.Sound := by
  induction l generalizing prev s with
  | nil => exact h
  | cons acl l ih =>
      unfold search
      split
      case h_1 mp _ _ =>
        have hpost := postaudio_sound (s.client acl).q mp h
        split
        case h_1 t ht =>
          rw [ht] at hpost
          apply ih
          rwa [links_keepMp]
        case h_2 t ht =>
          rw [ht] at hpost
          apply ih
          rwa [links_setMp]
      case h_2 => exact ih (some acl) h

theorem audiointr_sound (reqbits : Fin 4 → Bool) (h : s.links.Sound) :
    (s.audiointr reqbits).links.Sound := by
  unfold audiointr
  apply search_sound
  induction List.finRange 4 generalizing s with
  | nil => exact h
  | cons i l ih =>
      rw [List.foldl_cons]
      apply ih
      split
      · exact channelIntr_sound h
      · exact h

theorem audioopen_sound (h : s.links.Sound) : (s.audioopen q acl).links.Sound := by
  unfold audioopen
  split
  · exact h
  case isFalse hnew =>
    have hcome := h.come (q := q) (i := first) hnew
    rw [Links.come] at hcome
    simpa only [links, Function.comp_update] using hcome

end State

/-! ### Runs -/

/-- No client of a stream is attached when it is closed. -/
def ClosedDetached (s : State) : Event → Prop
  | .close q => ∀ acl ∈ s.clients, (s.client acl).q = q → (s.client acl).attached = false
  | _ => True

theorem Links.Sound.linked {s : State} (h : s.links.Sound) : Linked s := ⟨h.client, h.attached⟩

theorem init_sound : State.init.links.Sound where
  client _ acl h := absurd h.symm (Option.some_ne_none acl)
  attached _ h := absurd h List.not_mem_nil
  back _ acl h := absurd h.symm (Option.some_ne_none acl)
  stream _ acl h := absurd h.symm (Option.some_ne_none acl)
  sized _ acl h := absurd h.symm (Option.some_ne_none acl)

theorem step_sound {s : State} {e : Event} (h : s.links.Sound) (he : ClosedDetached s e) :
    (step s e).links.Sound := by
  cases e with
  | «open» q acl => exact State.audioopen_sound h
  | close q =>
      change (s.audioclose q).links.Sound
      unfold State.audioclose
      split
      · exact h
      case h_2 acl hq => exact h.go hq he
  | put q mp len => exact h
  | srv q => exact State.audiowsrv_sound h
  | intr reqbits => exact State.audiointr_sound reqbits h
  | chip n => exact h

/-- A close that leaves the links right found nobody attached. -/
theorem closedDetached_of_linked {s : State} {e : Event} (h : s.links.Sound)
    (he : Linked (step s e)) : ClosedDetached s e := by
  cases e with
  | close q =>
      cases hq : s.qPtr q with
      | none =>
          -- a client of a stream that is not open has no channel
          intro acl hmem hacl
          by_contra hatt
          have hown := h.attached acl hmem (Bool.eq_true_of_not_eq_false hatt)
          have hopen := (h.client _ acl hown).2
          change (s.qPtr (s.client acl).q).isSome at hopen
          rw [hacl, hq] at hopen
          exact Bool.false_ne_true hopen
      | some acl =>
          refine Links.Sound.unattached_of_go acl h fun i c hc => ?_
          have hlinked : Linked (s.audioclose q) := he
          unfold State.audioclose at hlinked
          rw [hq] at hlinked
          exact (hlinked.client i c hc).2
  | «open» => trivial
  | put => trivial
  | srv => trivial
  | intr => trivial
  | chip => trivial

/-- In a run the channels and the clients are linked right in every state exactly
if no client of a stream is attached when the stream is closed. -/
theorem audio_linked_iff (es : List Event) :
    Every step (fun s e => Linked (step s e)) State.init es ↔
      Every step ClosedDetached State.init es := by
  apply every_iff (fun s => s.links.Sound)
  · intro s e h he
    exact step_sound h he
  · intro s e h
    exact ⟨closedDetached_of_linked h, fun he => (step_sound h he).linked⟩
  · exact init_sound

/-- The client of a stream that is closed while its sound plays is gone, and the
channel still has it. -/
theorem audio_client_outlived : ¬ ∀ es : List Event,
    Every step (fun s e => Linked (step s e)) State.init es := by
  intro h
  have hrun := h [.chip 3, .open 0 0, .put 0 0 2, .srv 0, .close 0]
  have hclosed := hrun.2.2.2.2.1.client 0 0 rfl
  exact List.not_mem_nil hclosed.1

end HydraAmix.Audio.Clients
