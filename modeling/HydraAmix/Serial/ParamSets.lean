import HydraAmix.Serial.Output

/-!
# Where the port's parameters are set

TCSETAW, TCSETAF and their termios forms are to set the parameters when the output has
drained. `setsOf` lists the states in which an event sets parameters, in order, with the
command: it follows the routines of the port, and asks them for the states in between.
No routine writes, takes back what was sent, or puts a new message on the queue.
-/
namespace HydraAmix.Serial
open Word Schedule

/-- The commands that wait for the output. -/
def Cmd.drains : Cmd → Bool
  | .tcsetaf | .tcsetaw | .tcsetsf | .tcsetsw => true
  | _ => false

/-- Those of them that do not flush the input first. -/
def Cmd.drainsOnly : Cmd → Bool
  | .tcsetaw | .tcsetsw => true
  | _ => false

namespace Port

/-! ### The states in which parameters are set -/

/-- Of `slparam`, where `sets` is of `getoblk`. -/
def slparamSets (sets : Port → List (Port × Ioctl)) (s : Port) : List (Port × Ioctl) :=
  if s.iflag &&& IXON = 0 ∧ s.ttstop = true then sets { s with ttstop := false } else []

/-- The state in which `slparam` is called for the command, and those in what follows. -/
def setParamsSets (sets : Port → List (Port × Ioctl)) (set : BitVec 32 → BitVec 32 → BitVec 32)
    (i : Ioctl) (s : Port) : List (Port × Ioctl) :=
  match i.cont with
  | none => []
  | some cb =>
      (s, i) :: slparamSets sets
        { s with cflag := set s.cflag cb.cflag, iflag := set s.iflag cb.iflag }

def slsrviocSets (getoblk : Port → Option Port) (sets : Port → List (Port × Ioctl)) (s : Port)
    (i : Ioctl) : List (Port × Ioctl) :=
  match i.cmd with
  | .tcsetaf => sets s ++ (getoblk s).elim [] (setParamsSets sets lowHalf i)
  | .tcseta | .tcsetaw => setParamsSets sets lowHalf i s
  | .tcsetsf => sets s ++ (getoblk s).elim [] (setParamsSets sets (fun _ new => new) i)
  | .tcsets | .tcsetsw => setParamsSets sets (fun _ new => new) i s
  | .tcsbrk => sets { s.answer i with timeout := true }
  | .tcgeta | .tcgets | .ldioc | .other => []

def getoblkSets (env : Env) : ℕ → Port → List (Port × Ioctl)
  | 0, _ => []
  | turns + 1, s =>
      match s.q with
      | [] => []
      | .data first cont :: q =>
          let s := { s with q := q }
          if s.ttstop || s.timeout then []
          else
            let s := s.load first cont
            let s := if s.busy then s else s.sltint env
            if s.busy then [] else getoblkSets env turns s
      | .ioctl i :: q =>
          slsrviocSets (getoblk env turns) (getoblkSets env turns) { s with q := q } i ++
            (slsrvioc env (getoblk env turns) { s with q := q } i).elim [] fun s =>
              if s.busy then [] else getoblkSets env turns s

def slputiocSets (getoblk : Port → Option Port) (sets : Port → List (Port × Ioctl)) (s : Port)
    (i : Ioctl) : List (Port × Ioctl) :=
  match i.cmd with
  | .tcseta | .tcsets => if s.busy then [] else slsrviocSets getoblk sets s i
  | .tcgeta | .tcgets => slsrviocSets getoblk sets s i
  | .ldioc => []
  | _ => if s.q ≠ [] ∨ s.busy = true then [] else slsrviocSets getoblk sets s i

def drainSets (sets : Port → List (Port × Ioctl)) (s : Port) : List (Port × Ioctl) :=
  if s.q ≠ [] then sets s else []

/-- Of an event, with the state before it. -/
def setsOf (env : Env) (turns : ℕ) (s : Port) : Event → List (Port × Ioctl)
  | .data first cont =>
      if !s.carr then []
      else drainSets (getoblkSets env turns) { s with
        written := s.written ++ (first :: cont).flatten
        q := s.q ++ ((first :: cont).filter (· ≠ [])).map fun b => .data b [] }
  | .ioctl cmd raw cont =>
      let i : Ioctl := ⟨s.arrived, cmd, raw, cont⟩
      let s := { s with arrived := s.arrived + 1 }
      slputiocSets (getoblk env turns) (getoblkSets env turns) s i ++
        (slputioc env (getoblk env turns) s i).elim [] (drainSets (getoblkSets env turns))
  | .start =>
      getoblkSets env turns { s with ttstop := false } ++
        (slresume (getoblk env turns) s).elim [] (getoblkSets env turns)
  | .stop | .tint | .rint _ => []
  | .poll _ =>
      if env.hardware ∧ s.outputXoff = false ∧ s.ttstop = true then
        getoblkSets env turns { s with ttstop := false }
      else []
  | .restart =>
      slparamSets (getoblkSets env turns) s ++
        (slparam (getoblk env turns) s).elim [] fun s =>
          getoblkSets env turns { s with timeout := false }
  | .bufcall => getoblkSets env turns s

/-- Where a command that waits for the output sets parameters, all that was written has
been sent. -/
def Waits (env : Env) (turns : ℕ) (s : Port) (e : Event) : Prop :=
  ∀ x ∈ setsOf env turns s e, x.2.cmd.drains = true → x.1.sent.map Sent.ch = x.1.written

/-- Nothing is left to send when one of these commands comes with parameters. -/
def Drained (cmds : Cmd → Bool) (s : Port) : Event → Prop
  | .ioctl cmd _ (some _) => cmds cmd = true → s.output.getD [] = [] ∧ dataOf s.q = []
  | _ => True

end Port

/-! ### What a routine may do -/

/-- Nothing is written, more may have been sent, and no ioctl message is new on the queue. -/
structure Later (s t : Port) : Prop where
  written : t.written = s.written
  sent : s.sent <+: t.sent
  queue : ∀ i, Message.ioctl i ∈ t.q → Message.ioctl i ∈ s.q

/-- No command that waits for the output is on the queue. -/
def Free (s : Port) : Prop := ∀ i, Message.ioctl i ∈ s.q → i.cmd.drains = false

/-- A routine does no more than that. -/
def Goes (f : Port → Option Port) : Prop := ∀ s t, f s = some t → Later s t

section
variable {env : Env} {s t u : Port} {i : Ioctl} {f : Port → Option Port}

theorem Later.refl (s : Port) : Later s s := ⟨rfl, List.prefix_rfl, fun _ h => h⟩

theorem Later.trans (h : Later s t) (h' : Later t u) : Later s u where
  written := h'.written.trans h.written
  sent := h.sent.trans h'.sent
  queue i hi := h.queue i (h'.queue i hi)

theorem Later.free (h : Later s t) (hs : Free s) : Free t := fun i hi => hs i (h.queue i hi)

theorem mem_nextChar {m : Message} (out : List Byte) (q : List Message)
    (h : m ∈ (Port.nextChar out q).2) : m ∈ q := by
  induction q generalizing out with
  | nil =>
      cases out with
      | nil => exact h
      | cons c cs => exact h
  | cons m' q ih =>
      cases out with
      | nil => exact List.mem_cons_of_mem m' (ih m'.block h)
      | cons c cs => exact h

theorem later_sendChar (env : Env) (s : Port) : Later s (s.sendChar env) := by
  have hq := fun m => mem_nextChar (m := m) (s.output.getD []) s.q
  rw [Port.sendChar]
  split
  case h_1 q heq =>
    rw [heq] at hq
    exact ⟨rfl, List.prefix_rfl, fun i => hq (.ioctl i)⟩
  case h_2 ch rest q heq =>
    rw [heq] at hq
    exact ⟨rfl, List.prefix_append .., fun i => hq (.ioctl i)⟩

theorem later_transmit (env : Env) (s : Port) : Later s (s.transmit env) := by
  have hstop : Later s (if s.outputXoff && !s.ttstop then { s with ttstop := true } else s) := by
    split
    · exact ⟨rfl, List.prefix_rfl, fun _ h => h⟩
    · exact .refl s
  rw [Port.transmit]
  generalize (if s.outputXoff && !s.ttstop then { s with ttstop := true } else s) = u at hstop ⊢
  split
  · exact hstop
  · exact hstop.trans (later_sendChar env u)

theorem later_sltint (env : Env) (s : Port) : Later s (s.sltint env) := by
  have hset : ∀ busy asked, Later s { s with busy := busy, asked := asked } :=
    fun _ _ => ⟨rfl, List.prefix_rfl, fun _ h => h⟩
  rw [Port.sltint, Port.ask]
  dsimp only
  split
  · exact hset s.busy _
  · split
    · rw [Port.ask]
      dsimp only
      split
      · exact hset true _
      · exact (hset false _).trans (later_transmit env _)
    · exact (hset s.busy _).trans (later_transmit env _)

/-! ### Ioctl messages -/

theorem Goes.slparam (hf : Goes f) : Goes (Port.slparam f) := by
  intro s t h
  rw [Port.slparam] at h
  split at h
  · have hres := hf { s with ttstop := false } t h
    exact ⟨hres.written, hres.sent, hres.queue⟩
  · exact Option.some.inj h ▸ .refl s

theorem Goes.setParams (hf : Goes f) (set : BitVec 32 → BitVec 32 → BitVec 32) (i : Ioctl) :
    Goes (Port.setParams f set i) := by
  intro s t h
  rw [Port.setParams] at h
  split at h
  · obtain rfl := Option.some.inj h
    exact ⟨rfl, List.prefix_rfl, fun _ h => h⟩
  case h_2 cb _ =>
    obtain ⟨u, hu, rfl⟩ := Option.map_eq_some_iff.mp h
    have hpar := hf.slparam _ u hu
    exact ⟨hpar.written, hpar.sent, hpar.queue⟩

/-- A command is done with or goes back to the front, and it does not go back if it sets
parameters. -/
theorem Goes.slsrvioc (hf : Goes f) (h : Port.slsrvioc env f s i = some t) :
    Later { s with q := .ioctl i :: s.q } t ∧ (i.cmd.drains = true → Later s t) := by
  have hmore : ∀ {u}, Later s u → Later { s with q := .ioctl i :: s.q } u := fun hu =>
    ⟨hu.written, hu.sent, fun j hj => List.mem_cons_of_mem _ (hu.queue j hj)⟩
  have hset : ∀ set, Port.setParams f set i s = some t →
      Later { s with q := .ioctl i :: s.q } t ∧ (i.cmd.drains = true → Later s t) := by
    intro set hs
    have hlater := hf.setParams set i s t hs
    exact ⟨hmore hlater, fun _ => hlater⟩
  have hflush : ∀ set, (f s).bind (Port.setParams f set i) = some t →
      Later { s with q := .ioctl i :: s.q } t ∧ (i.cmd.drains = true → Later s t) := by
    intro set hs
    obtain ⟨u, hu, hs⟩ := Option.bind_eq_some_iff.mp hs
    have hlater := (hf s u hu).trans (hf.setParams set i u t hs)
    exact ⟨hmore hlater, fun _ => hlater⟩
  rw [Port.slsrvioc] at h
  cases hc : i.cmd with
  | tcsetaf | tcsetsf =>
      rw [hc] at h hflush
      exact hflush _ h
  | tcseta | tcsetaw | tcsets | tcsetsw =>
      rw [hc] at h hset
      exact hset _ h
  | tcsbrk =>
      rw [hc] at h
      have hres := hf { s.answer i with timeout := true } t h
      exact ⟨hmore ⟨hres.written, hres.sent, hres.queue⟩, fun hd => absurd hd.symm (by decide)⟩
  | tcgeta | tcgets | ldioc | other =>
      rw [hc] at h
      obtain rfl := Option.some.inj h
      refine ⟨?_, fun hd => absurd hd.symm (by decide)⟩
      rw [Port.answerIf, Port.ask]
      dsimp only
      split
      · exact hmore ⟨rfl, List.prefix_rfl, fun _ h => h⟩
      · exact ⟨rfl, List.prefix_rfl, fun _ h => h⟩

theorem later_load (s : Port) (first : List Byte) (cont : List (List Byte)) {q : List Message}
    (hq : s.q = .data first cont :: q) : Later s ({ s with q := q }.load first cont) := by
  have hback : ∀ j, Message.ioctl j ∈ q → Message.ioctl j ∈ s.q := fun j hj => by
    rw [hq]
    exact List.mem_cons_of_mem _ hj
  rw [Port.load]
  dsimp only
  split
  · refine ⟨rfl, List.prefix_rfl, fun j hj => ?_⟩
    rw [hq]
    exact hj
  · exact ⟨rfl, List.prefix_rfl, hback⟩

theorem getoblk_goes (env : Env) (turns : ℕ) : Goes (Port.getoblk env turns) := by
  induction turns with
  | zero => exact fun _ _ h => absurd h.symm (Option.some_ne_none _)
  | succ turns ih =>
      intro s t h
      have hloop : ∀ {u : Port}, Later s u →
          (if u.busy then some u else Port.getoblk env turns u) = some t → Later s t := by
        intro u hu hi
        split at hi
        · exact Option.some.inj hi ▸ hu
        · exact hu.trans (ih u t hi)
      rw [Port.getoblk] at h
      cases hq : s.q with
      | nil =>
          rw [hq] at h
          obtain rfl := Option.some.inj h
          exact ⟨rfl, List.prefix_rfl, fun j hj => absurd hj List.not_mem_nil⟩
      | cons m q =>
          cases m with
          | ioctl i =>
              rw [hq] at h
              obtain ⟨u, hu, hi⟩ := Option.bind_eq_some_iff.mp h
              have hsrv := (ih.slsrvioc hu).1
              refine hloop ⟨hsrv.written, hsrv.sent, fun j hj => ?_⟩ hi
              rw [hq]
              exact hsrv.queue j hj
          | data first cont =>
              have hload := later_load s first cont hq
              rw [hq] at h
              dsimp only at h
              split at h
              · obtain rfl := Option.some.inj h
                refine ⟨rfl, List.prefix_rfl, fun j hj => ?_⟩
                rw [hq]
                exact hj
              · refine hloop ?_ h
                split
                · exact hload
                · exact hload.trans (later_sltint env _)

end
end HydraAmix.Serial
