import HydraAmix.Console.CopperPipeline
import HydraAmix.Console.ScreenType
import HydraAmix.Library.RefCount
import Mathlib.Data.Fintype.Option
import Mathlib.Data.Fintype.Prod

/-!
# The life of fonts and keymaps

A font or a keymap comes from a user, either by copy-in requests to the
address that a transparent ioctl gives, or in the message of I_STR. Its header
then holds the number of the references to it, from the screens and from the
defaults, and it is freed with the last of them. Nothing is assumed of the data
that a copy-in brings.
-/
namespace HydraAmix.Console
open Word RefCount Schedule

abbrev F_MAGIC : Ushort := 0x2a46
abbrev FF_BUILTIN : Ushort := 0x8000
abbrev SIZEOF_FONT : ℕ := 2064
abbrev KM_MAGIC : Ushort := 0x2a4b
abbrev SIZEOF_KEYMAP : ℕ := 1096

/-- A message block with a font, as far as the header is read. In a block
shorter than that the fields are what lies behind it. -/
structure FontBlock where
  blklen : ℕ
  f_magic : Ushort
  f_flags : Ushort
  f_count : Ushort
  f_length : Long
  f_height : Byte
  f_width : Byte

structure KeymapBlock where
  blklen : ℕ
  km_magic : Ushort
  km_count : Byte
  km_length : Long

/-- What `srvioc` does with a message block. -/
inductive Reply where
  | nak
  | copyin (size : Long)
  | install
  deriving DecidableEq

/-- SIOCSETFONT and SIOCSETDEFFONT with a block; `iocdata` tells that it is the
answer to a copy-in request, and `mem` that AllocMem succeeds. -/
def srvFont (iocdata : Bool) (b : FontBlock) (mem : Bool) : Reply :=
  if iocdata = true ∧ b.blklen = SIZEOF_FONT then
    if b.f_magic ≠ F_MAGIC ∨ b.f_flags ≠ 0 ∨ b.f_length.toNat ≤ SIZEOF_FONT ∨
        0x10000 < b.f_length.toNat ∨ b.f_count ≠ 0 ∨ b.f_height = 0 ∨ b.f_width = 0 then .nak
    else .copyin b.f_length
  else if b.blklen = b.f_length.toNat then if mem then .install else .nak
  else .nak

/-- SIOCSETKMAP and SIOCSETDEFKMAP with a block. -/
def srvKmap (iocdata : Bool) (b : KeymapBlock) (mem : Bool) : Reply :=
  if iocdata = true ∧ b.blklen = SIZEOF_KEYMAP then
    if b.km_magic ≠ KM_MAGIC ∨ b.km_length.toNat < SIZEOF_KEYMAP ∨
        0x10000 < b.km_length.toNat ∨ b.km_count ≠ 0 then .nak
    else .copyin b.km_length
  else if b.blklen = b.km_length.toNat then if mem then .install else .nak
  else .nak

/-- A pointer to a font; installed fonts are numbered. -/
inductive Fontp where
  | null
  | builtin
  | user (n : ℕ)
  deriving DecidableEq

def Fontp.obj : Fontp → Option ℕ
  | user n => some n
  | _ => none

namespace FontKeymap

structure Screen where
  inuse : Bool
  font : Fin 4 → Fontp
  kmap : Option ℕ

def Screen.putFont (scr : Screen) (fnum : Fin 4) (fp : Fontp) : Screen :=
  { scr with font := Function.update scr.font fnum fp }

def Screen.putKmap (scr : Screen) (kmap : Option ℕ) : Screen := { scr with kmap := kmap }

structure Installed where
  fonts : Store FontBlock
  kmaps : Store KeymapBlock
  screen : Fin MAXSCREENS → Screen
  deffonts : Fin 4 → Fontp
  /-- `none` stands for the builtin keymap. -/
  defkmap : Option ℕ

def isBuiltin (c : Store FontBlock) (n : ℕ) : Bool := (c.head n).f_flags &&& FF_BUILTIN ≠ 0

/-- A pointer to a font goes away. -/
def dropFont (c : Store FontBlock) : Fontp → Store FontBlock
  | .user n => if isBuiltin c n then c else c.drop 16 n
  | _ => c

def takeFont (c : Store FontBlock) : Fontp → Store FontBlock
  | .user n => if isBuiltin c n then c else c.take 16 n
  | _ => c

def dropKmap (c : Store KeymapBlock) : Option ℕ → Store KeymapBlock
  | some n => c.drop 8 n
  | none => c

def takeKmap (c : Store KeymapBlock) : Option ℕ → Store KeymapBlock
  | some n => c.take 8 n
  | none => c

namespace Installed

def start : Installed where
  fonts := .empty ⟨0, 0, 0, 0, 0, 0, 0⟩
  kmaps := .empty ⟨0, 0, 0, 0⟩
  screen _ := ⟨false, fun _ => .null, none⟩
  deffonts _ := .builtin
  defkmap := none

variable (s : Installed)

def setScreen (sp : Fin MAXSCREENS) (scr : Screen) : Installed :=
  { s with screen := Function.update s.screen sp scr }

def setDefFont (fnum : Fin 4) (font : Option ℕ) : Installed :=
  let c := dropFont s.fonts (s.deffonts fnum)
  let font := match font with
    | some n => .user n
    | none => .builtin
  { s with fonts := takeFont c font, deffonts := Function.update s.deffonts fnum font }

def setFont (sp : Fin MAXSCREENS) (fnum : Fin 4) (font : Option ℕ) : Installed :=
  let scr := s.screen sp
  let c := dropFont s.fonts (scr.font fnum)
  let font := match font with
    | some n => .user n
    | none => s.deffonts fnum
  { s.setScreen sp (scr.putFont fnum font) with fonts := takeFont c font }

def setDefKmap (kmap : Option ℕ) : Installed :=
  { s with kmaps := takeKmap (dropKmap s.kmaps s.defkmap) kmap, defkmap := kmap }

def setKmap (sp : Fin MAXSCREENS) (kmap : Option ℕ) : Installed :=
  { s.setScreen sp ((s.screen sp).putKmap kmap) with
    kmaps := takeKmap (dropKmap s.kmaps (s.screen sp).kmap) kmap }

def openScreen : Installed :=
  match (List.finRange MAXSCREENS).find? fun sp => !(s.screen sp).inuse with
  | some sp => s.setScreen sp ⟨true, fun _ => .null, none⟩
  | none => s

def closeScreen (sp : Fin MAXSCREENS) : Installed :=
  let scr := s.screen sp
  { s.setScreen sp { scr with inuse := false } with
    kmaps := dropKmap s.kmaps scr.kmap
    fonts := (List.finRange 4).foldl (fun c i => dropFont c (scr.font i)) s.fonts }

/-- AllocMem and `bcopy`. -/
def newFont (b : FontBlock) : Installed := { s with fonts := s.fonts.install b b.f_count.toNat }
def newKmap (b : KeymapBlock) : Installed := { s with kmaps := s.kmaps.install b b.km_count.toNat }

/-- A request comes with a block, or without when a transparent ioctl gives a
null address. -/
inductive Event where
  | openScreen
  | closeScreen (sp : Fin MAXSCREENS)
  | setFont (sp : Fin MAXSCREENS) (fnum : Fin 4) (iocdata : Bool) (b : Option FontBlock)
      (mem : Bool)
  | setDefFont (suser : Bool) (fnum : Fin 4) (iocdata : Bool) (b : Option FontBlock) (mem : Bool)
  | setKmap (sp : Fin MAXSCREENS) (iocdata : Bool) (b : Option KeymapBlock) (mem : Bool)
  | setDefKmap (suser : Bool) (iocdata : Bool) (b : Option KeymapBlock) (mem : Bool)

/-- A request of a screen that is in use; `set` is SetFont or SetDefFont. -/
def fontRequest (set : Installed → Option ℕ → Installed) (iocdata : Bool) (b : Option FontBlock)
    (mem : Bool) : Installed :=
  match b with
  | none => set s none
  | some b => if srvFont iocdata b mem = .install then set (s.newFont b) (some s.fonts.next) else s

def kmapRequest (set : Installed → Option ℕ → Installed) (iocdata : Bool)
    (b : Option KeymapBlock) (mem : Bool) : Installed :=
  match b with
  | none => set s none
  | some b => if srvKmap iocdata b mem = .install then set (s.newKmap b) (some s.kmaps.next) else s

def step (s : Installed) : Event → Installed
  | .openScreen => s.openScreen
  | .closeScreen sp => if (s.screen sp).inuse then s.closeScreen sp else s
  | .setFont sp fnum iocdata b mem =>
      if (s.screen sp).inuse then s.fontRequest (·.setFont sp fnum ·) iocdata b mem else s
  | .setDefFont suser fnum iocdata b mem =>
      if suser then s.fontRequest (·.setDefFont fnum ·) iocdata b mem else s
  | .setKmap sp iocdata b mem =>
      if (s.screen sp).inuse then s.kmapRequest (·.setKmap sp ·) iocdata b mem else s
  | .setDefKmap suser iocdata b mem =>
      if suser then s.kmapRequest (·.setDefKmap ·) iocdata b mem else s

/-- The references to fonts: the defaults, and the screens in use. -/
def fontSlot : Option (Fin MAXSCREENS) × Fin 4 → Option ℕ
  | (none, fnum) => (s.deffonts fnum).obj
  | (some sp, fnum) => if (s.screen sp).inuse then ((s.screen sp).font fnum).obj else none

def kmapSlot : Option (Fin MAXSCREENS) → Option ℕ
  | none => s.defkmap
  | some sp => if (s.screen sp).inuse then (s.screen sp).kmap else none

/-- What is claimed of the fonts and keymaps that were installed. -/
structure Kept (s : Installed) : Prop where
  fonts : Counted s.fonts s.fontSlot
  kmaps : Counted s.kmaps s.kmapSlot
  fontHead : ∀ n < s.fonts.next, (s.fonts.head n).f_length.toNat = (s.fonts.head n).blklen ∧
    (s.fonts.head n).f_height ≠ 0 ∧ (s.fonts.head n).f_width ≠ 0
  kmapHead : ∀ n < s.kmaps.next, (s.kmaps.head n).km_length.toNat = (s.kmaps.head n).blklen

end Installed

/-- The block holds the fields, and they are those of a font with no references. -/
def FontFit (b : FontBlock) : Prop :=
  14 ≤ b.blklen ∧ b.f_flags &&& FF_BUILTIN = 0 ∧ b.f_count = 0 ∧ b.f_height ≠ 0 ∧ b.f_width ≠ 0

def KmapFit (b : KeymapBlock) : Prop := 8 ≤ b.blklen ∧ b.km_count = 0

/-- Whatever is installed is fit. -/
def Allowed (_ : Installed) : Installed.Event → Prop
  | .setFont _ _ iocdata (some b) mem => srvFont iocdata b mem = .install → FontFit b
  | .setDefFont _ _ iocdata (some b) mem => srvFont iocdata b mem = .install → FontFit b
  | .setKmap _ iocdata (some b) mem => srvKmap iocdata b mem = .install → KmapFit b
  | .setDefKmap _ iocdata (some b) mem => srvKmap iocdata b mem = .install → KmapFit b
  | _ => True

/-- What is known of the header of an installed font. -/
structure FontHead (b : FontBlock) : Prop where
  user : b.f_flags &&& FF_BUILTIN = 0
  length : b.f_length.toNat = b.blklen
  height : b.f_height ≠ 0
  width : b.f_width ≠ 0

section store
variable {ι : Type} [Fintype ι] [DecidableEq ι] {slot : ι → Option ℕ} {p : Option ℕ}

theorem dropFont_head (c : Store FontBlock) (fp : Fontp) :
    (dropFont c fp).head = c.head ∧ (dropFont c fp).next = c.next := by
  cases fp with
  | user n =>
      simp only [dropFont]
      split_ifs <;> exact ⟨rfl, rfl⟩
  | _ => exact ⟨rfl, rfl⟩

theorem takeFont_head (c : Store FontBlock) (fp : Fontp) :
    (takeFont c fp).head = c.head ∧ (takeFont c fp).next = c.next := by
  cases fp with
  | user n =>
      simp only [takeFont]
      split_ifs <;> exact ⟨rfl, rfl⟩
  | _ => exact ⟨rfl, rfl⟩

theorem dropKmap_head (c : Store KeymapBlock) (k : Option ℕ) :
    (dropKmap c k).head = c.head ∧ (dropKmap c k).next = c.next := by
  cases k <;> exact ⟨rfl, rfl⟩

theorem takeKmap_head (c : Store KeymapBlock) (k : Option ℕ) :
    (takeKmap c k).head = c.head ∧ (takeKmap c k).next = c.next := by
  cases k <;> exact ⟨rfl, rfl⟩

theorem FontHead.not_builtin {c : Store FontBlock} {n : ℕ} (h : FontHead (c.head n)) :
    isBuiltin c n = false := by
  simpa [isBuiltin] using h.user

theorem dropFont_sound {c : Store FontBlock} (hw : Fintype.card ι < 2 ^ 16)
    (h : Sound c slot p) (hh : ∀ n < c.next, FontHead (c.head n)) {i : ι} {fp : Fontp}
    (hi : slot i = fp.obj) : Sound (dropFont c fp) (Function.update slot i none) p := by
  have hself : slot i = none → Function.update slot i none = slot := fun hn =>
    hn ▸ Function.update_eq_self i slot
  cases fp with
  | user n =>
      have hb := (hh n (h.alive i hi).1).not_builtin
      simp only [dropFont, hb]
      exact h.drop hw hi
  | null => exact (hself hi).symm ▸ h
  | builtin => exact (hself hi).symm ▸ h

/-- An empty slot takes a pointer, to the font that was just installed or to
one that another slot refers to. -/
theorem takeFont_sound {c : Store FontBlock} (hw : Fintype.card ι < 2 ^ 16)
    (h : Sound c slot p) (hh : ∀ n < c.next, FontHead (c.head n)) {i : ι} (fp : Fontp)
    (hi : slot i = none) (hp : p = fp.obj ∨ p = none ∧ ∃ j, slot j = fp.obj) :
    Sound (takeFont c fp) (Function.update slot i fp.obj) none := by
  have hself : Function.update slot i none = slot := hi ▸ Function.update_eq_self i slot
  cases fp with
  | user n =>
      have hlt : n < c.next := by
        obtain hp | ⟨-, j, hj⟩ := hp
        · exact (h.pending n hp).1
        · exact (h.alive j hj).1
      have hb := (hh n hlt).not_builtin
      simp only [takeFont, hb]
      exact h.take hw hi (hp.imp_right fun hp => ⟨hp.1, refs_pos _ hp.2.choose_spec⟩)
  | null =>
      obtain rfl : p = none := hp.elim id (·.1)
      exact hself.symm ▸ h
  | builtin =>
      obtain rfl : p = none := hp.elim id (·.1)
      exact hself.symm ▸ h

theorem dropKmap_sound {c : Store KeymapBlock} (hw : Fintype.card ι < 2 ^ 8)
    (h : Sound c slot p) {i : ι} {k : Option ℕ} (hi : slot i = k) :
    Sound (dropKmap c k) (Function.update slot i none) p := by
  cases k with
  | some n => exact h.drop hw hi
  | none =>
      have hself : Function.update slot i none = slot := hi ▸ Function.update_eq_self i slot
      exact hself.symm ▸ h

theorem takeKmap_sound {c : Store KeymapBlock} (hw : Fintype.card ι < 2 ^ 8)
    (h : Sound c slot p) {i : ι} (hi : slot i = none) :
    Sound (takeKmap c p) (Function.update slot i p) none := by
  cases p with
  | some n => exact h.take hw hi (.inl rfl)
  | none =>
      have hself : Function.update slot i none = slot := hi ▸ Function.update_eq_self i slot
      exact hself.symm ▸ h

end store

namespace Installed

/-- The invariant; a font and a keymap may be on their way to a slot. -/
structure Inv (s : Installed) (pf pk : Option ℕ) : Prop where
  fonts : Sound s.fonts s.fontSlot pf
  kmaps : Sound s.kmaps s.kmapSlot pk
  fontHead : ∀ n < s.fonts.next, FontHead (s.fonts.head n)
  kmapHead : ∀ n < s.kmaps.next, (s.kmaps.head n).km_length.toNat = (s.kmaps.head n).blklen

variable {s : Installed} {pf pk : Option ℕ} {sp : Fin MAXSCREENS}

theorem Inv.kept (h : Inv s none none) : Kept s where
  fonts := h.fonts.counted
  kmaps := h.kmaps.counted
  fontHead n hn := ⟨(h.fontHead n hn).length, (h.fontHead n hn).height, (h.fontHead n hn).width⟩
  kmapHead := h.kmapHead

theorem card_fontSlot : Fintype.card (Option (Fin MAXSCREENS) × Fin 4) < 2 ^ 16 := by
  simp [MAXSCREENS]

theorem card_kmapSlot : Fintype.card (Option (Fin MAXSCREENS)) < 2 ^ 8 := by
  simp [MAXSCREENS]

theorem fontSlot_congr {t : Installed} (hd : t.deffonts = s.deffonts)
    (hs : ∀ sp, (t.screen sp).inuse = (s.screen sp).inuse ∧
      (t.screen sp).font = (s.screen sp).font) : t.fontSlot = s.fontSlot := by
  funext ⟨j, i⟩
  cases j with
  | none => simp only [fontSlot, hd]
  | some sp => simp only [fontSlot, (hs sp).1, (hs sp).2]

theorem kmapSlot_congr {t : Installed} (hd : t.defkmap = s.defkmap)
    (hs : ∀ sp, (t.screen sp).inuse = (s.screen sp).inuse ∧
      (t.screen sp).kmap = (s.screen sp).kmap) : t.kmapSlot = s.kmapSlot := by
  funext j
  cases j with
  | none => exact hd
  | some sp => simp only [kmapSlot, (hs sp).1, (hs sp).2]

/-- A screen that stays in use changes one of its fonts. -/
theorem fontSlot_putFont (hu : (s.screen sp).inuse = true) (fnum : Fin 4) (fp : Fontp) :
    (s.setScreen sp ((s.screen sp).putFont fnum fp)).fontSlot =
      Function.update s.fontSlot (some sp, fnum) fp.obj := by
  funext ⟨j, i⟩
  cases j with
  | none => rw [Function.update_of_ne (by simp)]; rfl
  | some sp' =>
      by_cases hsp : sp' = sp
      · subst hsp
        by_cases hi : i = fnum
        · subst hi
          simp [fontSlot, setScreen, Screen.putFont, hu]
        · rw [Function.update_of_ne (by simp [hi])]
          simp [fontSlot, setScreen, Screen.putFont, hu, hi]
      · rw [Function.update_of_ne (by simp [hsp])]
        simp [fontSlot, setScreen, hsp]

theorem kmapSlot_putKmap (hu : (s.screen sp).inuse = true) (k : Option ℕ) :
    (s.setScreen sp ((s.screen sp).putKmap k)).kmapSlot =
      Function.update s.kmapSlot (some sp) k := by
  funext j
  cases j with
  | none => rw [Function.update_of_ne (by simp)]; rfl
  | some sp' =>
      by_cases hsp : sp' = sp
      · subst hsp
        simp [kmapSlot, setScreen, Screen.putKmap, hu]
      · rw [Function.update_of_ne (by simp [hsp])]
        simp [kmapSlot, setScreen, hsp]

theorem kmapSlot_putFont (s : Installed) (sp : Fin MAXSCREENS) (fnum : Fin 4) (fp : Fontp) :
    (s.setScreen sp ((s.screen sp).putFont fnum fp)).kmapSlot = s.kmapSlot := by
  refine kmapSlot_congr rfl fun sp' => ?_
  by_cases hsp : sp' = sp
  · subst hsp
    simp [setScreen, Screen.putFont]
  · simp [setScreen, hsp]

theorem fontSlot_putKmap (s : Installed) (sp : Fin MAXSCREENS) (k : Option ℕ) :
    (s.setScreen sp ((s.screen sp).putKmap k)).fontSlot = s.fontSlot := by
  refine fontSlot_congr rfl fun sp' => ?_
  by_cases hsp : sp' = sp
  · subst hsp
    simp [setScreen, Screen.putKmap]
  · simp [setScreen, hsp]

theorem fontSlot_deffonts (fnum : Fin 4) (fp : Fontp) (c : Store FontBlock) :
    fontSlot { s with fonts := c, deffonts := Function.update s.deffonts fnum fp } =
      Function.update s.fontSlot (none, fnum) fp.obj := by
  funext ⟨j, i⟩
  cases j with
  | none =>
      by_cases hi : i = fnum
      · subst hi
        simp [fontSlot]
      · rw [Function.update_of_ne (by simp [hi])]
        simp [fontSlot, hi]
  | some sp' => rw [Function.update_of_ne (by simp)]; rfl

theorem Inv.newFont (h : Inv s none pk) {b : FontBlock} (hb : FontHead b) (h0 : b.f_count = 0) :
    Inv (s.newFont b) (some s.fonts.next) pk := by
  refine ⟨?_, h.kmaps, fun n hn => ?_, h.kmapHead⟩
  · have hz : b.f_count.toNat = 0 := by rw [h0]; rfl
    simp only [Installed.newFont, hz]
    exact h.fonts.install b
  · simp only [Installed.newFont, Store.install] at hn ⊢
    by_cases he : n = s.fonts.next
    · rw [he, Function.update_self]
      exact hb
    · rw [Function.update_of_ne he]
      exact h.fontHead n (by omega)

theorem Inv.newKmap (h : Inv s pf none) {b : KeymapBlock} (hb : b.km_length.toNat = b.blklen)
    (h0 : b.km_count = 0) : Inv (s.newKmap b) pf (some s.kmaps.next) := by
  refine ⟨h.fonts, ?_, h.fontHead, fun n hn => ?_⟩
  · have hz : b.km_count.toNat = 0 := by rw [h0]; rfl
    simp only [Installed.newKmap, hz]
    exact h.kmaps.install b
  · simp only [Installed.newKmap, Store.install] at hn ⊢
    by_cases he : n = s.kmaps.next
    · rw [he, Function.update_self]
      exact hb
    · rw [Function.update_of_ne he]
      exact h.kmapHead n (by omega)

/-- A slot of a font drops what it has and takes another pointer. -/
theorem Inv.replaceFont (h : Inv s pf pk) {i : Option (Fin MAXSCREENS) × Fin 4}
    (old new : Fontp) (hold : s.fontSlot i = old.obj)
    (hnew : pf = new.obj ∨ pf = none ∧ ∃ j, j ≠ i ∧ s.fontSlot j = new.obj) :
    Sound (takeFont (dropFont s.fonts old) new) (Function.update s.fontSlot i new.obj) none ∧
      ∀ n < (takeFont (dropFont s.fonts old) new).next,
        FontHead ((takeFont (dropFont s.fonts old) new).head n) := by
  obtain ⟨hh, hn⟩ := dropFont_head s.fonts old
  obtain ⟨hh', hn'⟩ := takeFont_head (dropFont s.fonts old) new
  have hheads : ∀ n < (dropFont s.fonts old).next, FontHead ((dropFont s.fonts old).head n) := by
    rw [hh, hn]
    exact h.fontHead
  refine ⟨?_, by rwa [hh', hn']⟩
  have hdrop := dropFont_sound card_fontSlot h.fonts h.fontHead hold
  have htake := takeFont_sound card_fontSlot hdrop hheads new
    (Function.update_self i none s.fontSlot) (hnew.imp_right fun ⟨hp, j, hj, hjn⟩ =>
      ⟨hp, j, (Function.update_of_ne hj none s.fontSlot).trans hjn⟩)
  rwa [Function.update_idem] at htake

theorem Inv.setFont (h : Inv s pf none) (hu : (s.screen sp).inuse = true) (fnum : Fin 4) :
    Inv (s.setFont sp fnum pf) none none := by
  have hold : s.fontSlot (some sp, fnum) = ((s.screen sp).font fnum).obj := if_pos hu
  have hset : ∀ new : Fontp, (pf = new.obj ∨ pf = none ∧ new = s.deffonts fnum) →
      Inv { s.setScreen sp ((s.screen sp).putFont fnum new) with
        fonts := takeFont (dropFont s.fonts ((s.screen sp).font fnum)) new } none none := by
    intro new hnew
    obtain ⟨hs, hh⟩ := h.replaceFont _ new hold (hnew.imp_right fun ⟨hp, hd⟩ =>
      ⟨hp, (none, fnum), by simp, congrArg Fontp.obj hd.symm⟩)
    refine ⟨?_, ?_, hh, h.kmapHead⟩
    · exact (fontSlot_putFont hu fnum new).symm ▸ hs
    · exact (kmapSlot_putFont s sp fnum new).symm ▸ h.kmaps
  cases pf with
  | some n => exact hset (.user n) (.inl rfl)
  | none => exact hset _ (.inr ⟨rfl, rfl⟩)

theorem Inv.setDefFont (h : Inv s pf none) (fnum : Fin 4) :
    Inv (s.setDefFont fnum pf) none none := by
  have hset : ∀ new : Fontp, pf = new.obj → Inv { s with
      fonts := takeFont (dropFont s.fonts (s.deffonts fnum)) new,
      deffonts := Function.update s.deffonts fnum new } none none := by
    intro new hnew
    obtain ⟨hs, hh⟩ := h.replaceFont (i := (none, fnum)) (s.deffonts fnum) new rfl (.inl hnew)
    refine ⟨?_, h.kmaps, hh, h.kmapHead⟩
    rw [fontSlot_deffonts]
    exact hs
  cases pf with
  | some n => exact hset (.user n) rfl
  | none => exact hset .builtin rfl

/-- A slot of a keymap drops what it has and takes another pointer. -/
theorem Inv.replaceKmap (h : Inv s pf pk) {i : Option (Fin MAXSCREENS)} (old : Option ℕ)
    (hold : s.kmapSlot i = old) :
    Sound (takeKmap (dropKmap s.kmaps old) pk) (Function.update s.kmapSlot i pk) none ∧
      ∀ n < (takeKmap (dropKmap s.kmaps old) pk).next,
        ((takeKmap (dropKmap s.kmaps old) pk).head n).km_length.toNat =
          ((takeKmap (dropKmap s.kmaps old) pk).head n).blklen := by
  obtain ⟨hh, hn⟩ := dropKmap_head s.kmaps old
  obtain ⟨hh', hn'⟩ := takeKmap_head (dropKmap s.kmaps old) pk
  refine ⟨?_, by rw [hh', hn', hh, hn]; exact h.kmapHead⟩
  have hdrop := dropKmap_sound card_kmapSlot h.kmaps hold
  have htake := takeKmap_sound card_kmapSlot hdrop (Function.update_self i none s.kmapSlot)
  rwa [Function.update_idem] at htake

theorem Inv.setKmap (h : Inv s none pk) (hu : (s.screen sp).inuse = true) :
    Inv (s.setKmap sp pk) none none := by
  obtain ⟨hs, hh⟩ := h.replaceKmap (i := some sp) (s.screen sp).kmap (if_pos hu)
  refine ⟨?_, ?_, h.fontHead, hh⟩
  · exact (fontSlot_putKmap s sp pk).symm ▸ h.fonts
  · exact (kmapSlot_putKmap hu pk).symm ▸ hs

theorem Inv.setDefKmap (h : Inv s none pk) : Inv (s.setDefKmap pk) none none := by
  obtain ⟨hs, hh⟩ := h.replaceKmap (i := none) s.defkmap rfl
  refine ⟨h.fonts, ?_, h.fontHead, hh⟩
  have hslot : (s.setDefKmap pk).kmapSlot = Function.update s.kmapSlot none pk := by
    funext j
    cases j with
    | none => rw [Function.update_self]; rfl
    | some sp => rw [Function.update_of_ne (by simp)]; rfl
  exact hslot.symm ▸ hs

/-- A screen is taken into use with no fonts and no keymap. -/
theorem Inv.openScreen (h : Inv s none none) : Inv s.openScreen none none := by
  unfold Installed.openScreen
  split
  · next sp hsp =>
    have hfree : (s.screen sp).inuse = false := by simpa using List.find?_some hsp
    have hfont : (s.setScreen sp ⟨true, fun _ => .null, none⟩).fontSlot = s.fontSlot := by
      funext ⟨j, i⟩
      cases j with
      | none => rfl
      | some sp' =>
          by_cases he : sp' = sp
          · subst he
            simp [fontSlot, setScreen, hfree, Fontp.obj]
          · simp [fontSlot, setScreen, he]
    have hkmap : (s.setScreen sp ⟨true, fun _ => .null, none⟩).kmapSlot = s.kmapSlot := by
      funext j
      cases j with
      | none => rfl
      | some sp' =>
          by_cases he : sp' = sp
          · subst he
            simp [kmapSlot, setScreen, hfree]
          · simp [kmapSlot, setScreen, he]
    exact ⟨hfont.symm ▸ h.fonts, hkmap.symm ▸ h.kmaps, h.fontHead, h.kmapHead⟩
  · exact h

/-- The loop of CloseScreen over the fonts. -/
theorem dropFonts_sound (sp : Fin MAXSCREENS) (font : Fin 4 → Fontp)
    {slot : Option (Fin MAXSCREENS) × Fin 4 → Option ℕ} {c : Store FontBlock} {is : List (Fin 4)}
    (hnd : is.Nodup)
    (h : Sound c slot none) (hh : ∀ n < c.next, FontHead (c.head n))
    (hslot : ∀ i ∈ is, slot (some sp, i) = (font i).obj) :
    Sound (is.foldl (fun c i => dropFont c (font i)) c)
      (fun j => if j.1 = some sp ∧ j.2 ∈ is then none else slot j) none ∧
      ∀ n < (is.foldl (fun c i => dropFont c (font i)) c).next,
        FontHead ((is.foldl (fun c i => dropFont c (font i)) c).head n) := by
  induction is generalizing c slot with
  | nil => exact ⟨by simpa using h, hh⟩
  | cons i is ih =>
      obtain ⟨hi, hnd⟩ := List.nodup_cons.mp hnd
      obtain ⟨hhead, hnext⟩ := dropFont_head c (font i)
      have hdrop := dropFont_sound card_fontSlot h hh (hslot i List.mem_cons_self)
      have hrest := ih hnd hdrop (by rw [hhead, hnext]; exact hh) (fun k hk => by
        rw [Function.update_of_ne (by
          intro he
          cases he
          exact hi hk)]
        exact hslot k (List.mem_cons_of_mem i hk))
      refine ⟨?_, hrest.2⟩
      have hfun : (fun j : Option (Fin MAXSCREENS) × Fin 4 =>
          if j.1 = some sp ∧ j.2 ∈ is then none
          else Function.update slot (some sp, i) none j) =
          fun j => if j.1 = some sp ∧ j.2 ∈ i :: is then none else slot j := by
        funext ⟨j, k⟩
        by_cases hjk : (j, k) = (some sp, i)
        · cases hjk
          simp
        · rw [Function.update_of_ne hjk]
          have hk : j = some sp → k ≠ i := fun hj hk => hjk (by rw [hj, hk])
          by_cases hj : j = some sp
          · simp [hj, hk hj]
          · simp [hj]
      exact hfun ▸ hrest.1

theorem Inv.closeScreen (h : Inv s none none) (hu : (s.screen sp).inuse = true) :
    Inv (s.closeScreen sp) none none := by
  obtain ⟨hfonts, hheads⟩ := dropFonts_sound sp (s.screen sp).font (List.nodup_finRange 4)
    h.fonts h.fontHead (fun i _ => if_pos hu)
  obtain ⟨hh, hn⟩ := dropKmap_head s.kmaps (s.screen sp).kmap
  have hkmaps := dropKmap_sound card_kmapSlot h.kmaps (i := some sp) (if_pos hu)
  have hfont : (s.closeScreen sp).fontSlot = fun j : Option (Fin MAXSCREENS) × Fin 4 =>
      if j.1 = some sp ∧ j.2 ∈ List.finRange 4 then none else s.fontSlot j := by
    funext ⟨j, i⟩
    cases j with
    | none => simp [fontSlot, Installed.closeScreen, setScreen]
    | some sp' =>
        by_cases he : sp' = sp
        · subst he
          simp [fontSlot, Installed.closeScreen, setScreen]
        · simp [fontSlot, Installed.closeScreen, setScreen, he]
  have hkmap : (s.closeScreen sp).kmapSlot = Function.update s.kmapSlot (some sp) none := by
    funext j
    cases j with
    | none => rw [Function.update_of_ne (by simp)]; rfl
    | some sp' =>
        by_cases he : sp' = sp
        · subst he
          simp [kmapSlot, Installed.closeScreen, setScreen]
        · rw [Function.update_of_ne (by simp [he])]
          simp [kmapSlot, Installed.closeScreen, setScreen, he]
  exact ⟨hfont.symm ▸ hfonts, hkmap.symm ▸ hkmaps, hheads,
    fun n hlt => by
      have := h.kmapHead n (by rwa [← hn])
      rwa [← hh] at this⟩

theorem start_inv : Inv start none none := by
  have hfont : start.fontSlot = fun _ => none := by
    funext ⟨j, i⟩
    cases j <;> rfl
  have hkmap : start.kmapSlot = fun _ => none := by
    funext j
    cases j <;> rfl
  exact ⟨hfont.symm ▸ sound_empty _, hkmap.symm ▸ sound_empty _,
    fun _ hn => absurd hn (Nat.not_lt_zero _), fun _ hn => absurd hn (Nat.not_lt_zero _)⟩

/-- A block that is installed has the length that it says. -/
theorem srvFont_install {iocdata mem : Bool} {b : FontBlock}
    (h : srvFont iocdata b mem = .install) : b.f_length.toNat = b.blklen := by
  unfold srvFont at h
  split_ifs at h with h1 h2 h3
  exact h3.symm

theorem srvKmap_install {iocdata mem : Bool} {b : KeymapBlock}
    (h : srvKmap iocdata b mem = .install) : b.km_length.toNat = b.blklen := by
  unfold srvKmap at h
  split_ifs at h with h1 h2 h3
  exact h3.symm

theorem Inv.fontRequest (h : Inv s none none) {set : Installed → Option ℕ → Installed}
    (hset : ∀ t font, Inv t font none → t.screen = s.screen → Inv (set t font) none none)
    {iocdata mem : Bool} {b : Option FontBlock}
    (ha : ∀ b', b = some b' → srvFont iocdata b' mem = .install → FontFit b') :
    Inv (s.fontRequest set iocdata b mem) none none := by
  unfold Installed.fontRequest
  split
  · exact hset s none h rfl
  · next b' =>
    split_ifs with hi
    · obtain ⟨-, hf, hc, hh, hw⟩ := ha b' rfl hi
      exact hset _ _ (h.newFont ⟨hf, srvFont_install hi, hh, hw⟩ hc) rfl
    · exact h

theorem Inv.kmapRequest (h : Inv s none none) {set : Installed → Option ℕ → Installed}
    (hset : ∀ t kmap, Inv t none kmap → t.screen = s.screen → Inv (set t kmap) none none)
    {iocdata mem : Bool} {b : Option KeymapBlock}
    (ha : ∀ b', b = some b' → srvKmap iocdata b' mem = .install → KmapFit b') :
    Inv (s.kmapRequest set iocdata b mem) none none := by
  unfold Installed.kmapRequest
  split
  · exact hset s none h rfl
  · next b' =>
    split_ifs with hi
    · exact hset _ _ (h.newKmap (srvKmap_install hi) (ha b' rfl hi).2) rfl
    · exact h

theorem Inv.step (h : Inv s none none) {e : Event} (ha : Allowed s e) :
    Inv (s.step e) none none := by
  cases e with
  | openScreen => exact h.openScreen
  | closeScreen sp =>
      simp only [Installed.step]
      split_ifs with hu
      · exact h.closeScreen hu
      · exact h
  | setFont sp fnum iocdata b mem =>
      simp only [Installed.step]
      split_ifs with hu
      · refine h.fontRequest (fun t font ht hs => ht.setFont (by rwa [hs]) fnum) ?_
        rintro b' rfl
        exact ha
      · exact h
  | setDefFont suser fnum iocdata b mem =>
      simp only [Installed.step]
      split_ifs
      · refine h.fontRequest (fun t font ht _ => ht.setDefFont fnum) ?_
        rintro b' rfl
        exact ha
      · exact h
  | setKmap sp iocdata b mem =>
      simp only [Installed.step]
      split_ifs with hu
      · refine h.kmapRequest (fun t kmap ht hs => ht.setKmap (by rwa [hs])) ?_
        rintro b' rfl
        exact ha
      · exact h
  | setDefKmap suser iocdata b mem =>
      simp only [Installed.step]
      split_ifs
      · refine h.kmapRequest (fun t kmap ht _ => ht.setDefKmap) ?_
        rintro b' rfl
        exact ha
      · exact h

/-- In every run in which what is installed is fit, the fonts and keymaps are
counted and freed as they should be. -/
theorem lifetime (es : List Event) (h : Every step Allowed start es) :
    Kept (final step start es) :=
  (final_of_every (Inv · none none) (fun _ _ hi ha => hi.step ha) start_inv h).kept

/-- A font as I_STR may bring it. -/
def fontImage (height : Byte) : FontBlock := ⟨SIZEOF_FONT, F_MAGIC, 0, 0, 2064, height, 8⟩

/-- A screen gets a font and a keymap, drops the keymap, and is closed. -/
def oneScreen (sp : Fin MAXSCREENS) (fnum : Fin 4) (height : Byte) : List Event :=
  [.openScreen, .setFont sp fnum false (some (fontImage height)) true,
    .setKmap sp false (some ⟨SIZEOF_KEYMAP, KM_MAGIC, 0, 1096⟩) true, .setKmap sp false none true,
    .closeScreen sp]

theorem lifetime_one : Kept (final step start (oneScreen 0 0 8)) := by
  refine lifetime (oneScreen 0 0 8) ⟨trivial, ?_, ?_, trivial, trivial, trivial⟩
  · intro _
    unfold FontFit
    decide
  · intro _
    unfold KmapFit
    decide

/-- A font of height zero. -/
theorem lifetime_fails : ¬ Kept (final step start (oneScreen 0 0 0)) := by
  intro h
  exact (h.fontHead 0 (by decide)).2.1 rfl

end Installed
end FontKeymap
end HydraAmix.Console
