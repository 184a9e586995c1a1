import HydraAmix.Library.ParentLinks
import HydraAmix.Library.Schedule
import Mathlib.Data.Finset.Option
import Mathlib.Tactic.SplitIfs

/-!
# Key transitions through an installed keymap

A keymap is one block of bytes: a header, the keys of the sixteen shift bits,
a top table with an entry for every raw code, and an area of strings and
further tables that the entries name by 24-bit offsets. SIOCSETKMAP and
SIOCSETDEFKMAP install whatever has the block's own size in its length field.

`encode` interprets an entry at interrupt level. A table is a list of masks and
a list of entries; the first mask contained in the keyboard state selects the
entry to go on with, and neither list has an end. Reads of bytes that are not
the keymap's give no value here, and `fuel` bounds the nested tables.

The console's own character input, for which the screen is null, uses the
built-in keymap only and is not here; nor is the repeat timer, which only
chooses when a key comes again.
-/
namespace HydraAmix.Console.KeyEncode
open Schedule ParentLinks

/-- Memory from a keymap's address on, of which `length` bytes are the keymap's. -/
structure Block where
  length : ℕ
  byte : ℕ → BitVec 8

namespace Block

variable (b : Block)

/-- The big-endian number in the `w` bytes from `p` on. -/
def bigEndian (p : ℕ) : ℕ → ℕ
  | 0 => 0
  | w + 1 => bigEndian p w * 256 + (b.byte (p + w)).toNat

/-- A read of `w` bytes, all of which have to be the block's own. -/
def read (w p : ℕ) : Option ℕ := if p + w ≤ b.length then some (b.bigEndian p w) else none

end Block

/-- What an ioctl hands over as a keymap: the data block of an I_STR message,
or the header and then the data that a transparent ioctl copies in. -/
inductive Ioctl
  | istr (data : Block)
  | transparent (ukmp data : Block)

/-- An installed keymap; its km_length is the size of its block. -/
structure Keymap extends Block where
  km_length : toBlock.read 4 4 = some toBlock.length

def sizeofKeymap : ℕ := 1096

/-- The tests of `srvioc` on the header that a transparent ioctl copies in first. -/
def headerAccepted (ukmp : Block) : Prop :=
  ukmp.bigEndian 0 2 = 0x2a4b ∧ sizeofKeymap ≤ ukmp.bigEndian 4 4 ∧
    ukmp.bigEndian 4 4 ≤ 0x10000 ∧ ukmp.bigEndian 3 1 = 0

instance (ukmp : Block) : Decidable (headerAccepted ukmp) := by
  unfold headerAccepted
  infer_instance

/-- The keymap that one of the two ioctls installs, before it is counted. Data
of the header's own size would be taken for a header once more. -/
def srvioc : Ioctl → Option Keymap
  | .istr data => if h : data.read 4 4 = some data.length then some ⟨data, h⟩ else none
  | .transparent ukmp data =>
      if h : data.read 4 4 = some data.length then
        if headerAccepted ukmp ∧ data.length = ukmp.bigEndian 4 4 ∧ data.length ≠ sizeofKeymap
        then some ⟨data, h⟩
        else none
      else none

/-- Every keymap is installed by some ioctl. -/
theorem srvioc_istr (km : Keymap) : srvioc (.istr km.toBlock) = some km :=
  dif_pos km.km_length

/-- `++kmap->km_count`, with which SetKmap and SetDefKmap take the keymap. -/
def Keymap.setKmap (km : Keymap) : Keymap where
  length := km.length
  byte i := if i = 3 then km.byte 3 + 1 else km.byte i
  km_length := km.km_length

inductive Action
  | chr
  | str (w : ℕ)
  | stat
  | tab
  | nop
  | invalid
  deriving DecidableEq

structure Keyent where
  actiontype : ℕ
  flags : ℕ
  value : ℕ
  deriving DecidableEq

namespace Keyent

def ofLong (w : ℕ) : Keyent := ⟨w / 2 ^ 28 % 2 ^ 4, w / 2 ^ 24 % 2 ^ 4, w % 2 ^ 24⟩

variable (e : Keyent)

def action : Action :=
  match e.actiontype with
  | 0 => .chr
  | 1 => .str 1
  | 2 => .str 2
  | 3 => .str 4
  | 5 => .stat
  | 6 => .tab
  | 7 => .nop
  | _ => .invalid

/-- 1+!(ke_flags & KF_NOREP): 2 where the key repeats. -/
def repeats : ℕ := if e.flags % 2 = 0 then 2 else 1

theorem width_pos {w : ℕ} (h : e.action = .str w) : 0 < w := by
  unfold action at h
  split at h <;> cases h <;> omega

end Keyent

/-- The static state of the keyboard code. -/
structure Keyboard where
  keystates : ℕ → Bool
  shiftkeys : ℕ → Bool
  keyboardstate : BitVec 32
  clearprefix : Bool

/-- What `encode` returns, the keyboard it leaves, and the calls of `kbfunc`. -/
structure Encoded where
  code : ℕ
  kb : Keyboard
  delivered : List (ℕ × BitVec 32)

namespace Keyboard

variable (kb : Keyboard)

def clear (repeatflag : Bool) : Keyboard :=
  if kb.clearprefix && !repeatflag then
    ⟨kb.keystates, kb.shiftkeys, kb.keyboardstate &&& ~~~0xff0000#32, false⟩
  else kb

def setState (x : BitVec 32) : Keyboard := ⟨kb.keystates, kb.shiftkeys, x, kb.clearprefix⟩

def deliver (e : Keyent) (cs : List ℕ) : Encoded :=
  ⟨e.repeats, ⟨kb.keystates, kb.shiftkeys, kb.keyboardstate, true⟩,
    cs.map fun c => (c, kb.keyboardstate)⟩

def quiet : Encoded := ⟨0, kb, []⟩

/-- After the prefix bits were cleared there is nothing more to clear. -/
@[simp] theorem clear_clear (rep : Bool) : (kb.clear rep).clear rep = kb.clear rep := by
  unfold clear
  split_ifs with h <;> simp_all

end Keyboard

namespace Block

variable (b : Block)

def keyent (p : ℕ) : Option Keyent := (b.read 4 p).map Keyent.ofLong

/-- `for (i = *p++; i > 0; --i)` runs on an int. -/
def count (i : ℕ) : ℕ := if i < 2 ^ 31 then i else 0

/-- The next `n` characters of `w` bytes. -/
def chars (w : ℕ) : ℕ → ℕ → Option (List ℕ)
  | 0, _ => some []
  | n + 1, p => (b.read w p).bind fun c => (chars w n (p + w)).map (c :: ·)

/-- The characters of KA_STR8, KA_STR16 and KA_STR32, of `w` bytes each. -/
def string (w p : ℕ) : Option (List ℕ) :=
  (b.read w p).bind fun i => b.chars w (count i) (p + w)

/-- The mask is contained in the state. -/
def Matches (state : BitVec 32) (m : ℕ) : Prop := BitVec.ofNat 32 m &&& state = BitVec.ofNat 32 m

instance (state : BitVec 32) (m : ℕ) : Decidable (Matches state m) :=
  inferInstanceAs (Decidable (_ = _))

/-- The loop of KA_TAB over masks and entries. -/
def search (state : BitVec 32) : ℕ → ℕ → ℕ → Option Keyent
  | 0, _, _ => none
  | n + 1, mp, p => (b.read 4 mp).bind fun m =>
      if Matches state m then b.keyent p else search state n (mp + 4) (p + 4)

/-- The entry that the table at `v` selects. A loop of as many rounds as the
keymap has bytes has left the keymap. -/
def table (state : BitVec 32) (v : ℕ) : Option Keyent :=
  (b.keyent v).bind fun TMP => b.search state b.length TMP.value (v + 4)

def encode (repeatflag : Bool) (fuel : ℕ) (kb : Keyboard) (e : Keyent) : Option Encoded :=
  match e.action, fuel with
  | .chr, _ => some (kb.deliver e [e.value])
  | .str w, _ => (b.string w e.value).map (kb.deliver e)
  | .nop, _ => some kb.quiet
  | .stat, _ =>
      let kb := kb.clear repeatflag
      some (kb.setState (kb.keyboardstate ||| BitVec.ofNat 32 e.value)).quiet
  | .tab, 0 => none
  | .tab, fuel + 1 =>
      let kb := kb.clear repeatflag
      (b.table kb.keyboardstate e.value).bind (encode repeatflag fuel kb)
  | .invalid, _ => some kb.quiet

/-- Whether one of the keys of a shift bit satisfies `p`; the keys end after
four or at one above 127. -/
def rowAny (i : ℕ) (p : ℕ → Bool) : List ℕ → Option Bool
  | [] => some false
  | j :: js => (b.read 1 (8 + 4 * i + j)).bind fun k =>
      if 127 < k then some false else if p k then some true else rowAny i p js

/-- The shift bit `i` after a transition of key `c`. -/
def shiftBit (c : ℕ) (up : Bool) (kb : Keyboard) (i : ℕ) : Option Keyboard :=
  (b.rowAny i (· == c) [0, 1, 2, 3]).bind fun hit =>
    if hit then
      if up then (b.rowAny i kb.keystates [0, 1, 2, 3]).map fun held =>
        kb.setState (if held then kb.keyboardstate &&& ~~~(1#32 <<< i) ||| 1#32 <<< i
          else kb.keyboardstate &&& ~~~(1#32 <<< i))
      else some (kb.setState (kb.keyboardstate ||| 1#32 <<< i))
    else some kb

/-- The keyboard with which `dokb` calls `encode`. -/
def shifted (rawcode : ℕ) (kb : Keyboard) : Option Keyboard :=
  if kb.shiftkeys (rawcode % 128) then
    (List.range 16).foldlM (b.shiftBit (rawcode % 128) (128 ≤ rawcode)) kb
  else some kb

/-- `dokb` for a screen that interprets its keys through the keymap. -/
def dokb (fuel : ℕ) (rawcode : ℕ) (repeatflag : Bool) (kb : Keyboard) : Option Encoded :=
  (b.shifted rawcode kb).bind fun kb =>
    (b.keyent (72 + 4 * rawcode)).bind (b.encode repeatflag fuel kb)

end Block

/-- A key transition: the keyboard interrupt with a raw code, or the repeat timer. -/
inductive Event
  | key (rawcode : BitVec 8)
  | again (repcode : BitVec 8)

namespace Event

def rawcode : Event → ℕ
  | .key c => c.toNat
  | .again c => c.toNat

def repeated : Event → Bool
  | .key _ => false
  | .again _ => true

/-- What `kbintr` notes of the key; the keyboard's own messages are not keys. -/
def note : Event → Keyboard → Keyboard
  | .key c, kb =>
      if c = 0x78#8 ∨ 0xf8#8 ≤ c then kb
      else ⟨Function.update kb.keystates (c.toNat % 128) (c.toNat < 128), kb.shiftkeys,
        kb.keyboardstate, kb.clearprefix⟩
  | .again _, kb => kb

end Event

namespace Keymap

variable (km : Keymap)

/-- One key transition, with at most `fuel` nested tables. -/
def transition (fuel : ℕ) (kb : Keyboard) (ev : Event) : Option Encoded :=
  km.dokb fuel ev.rawcode ev.repeated (ev.note kb)

def step (kb : Keyboard) (ev : Event) : Keyboard :=
  ((km.transition km.length kb ev).map Encoded.kb).getD kb

/-- The transition ends, after no more nested tables than the keymap has bytes;
it reads bytes of the keymap only, and delivers no more characters than that. -/
def Safe (kb : Keyboard) (ev : Event) : Prop :=
  ∃ r, km.transition km.length kb ev = some r ∧ r.delivered.length ≤ km.length

end Keymap

/-! ## What an entry leads to -/

namespace Block

variable (b : Block) (state : BitVec 32)

/-- The string's count and all its characters are bytes of the keymap. -/
def HoldsString (w p : ℕ) : Prop :=
  ∃ i, b.read w p = some i ∧ p + w + w * count i ≤ b.length

/-- In the table at `v` the first mask contained in the state stands inside the
keymap, and so does its entry, which is `e`. -/
def Selects (v : ℕ) (e : Keyent) : Prop :=
  ∃ TMP k, b.keyent v = some TMP ∧
    (∀ j < k, ∃ m, b.read 4 (TMP.value + 4 * j) = some m ∧ ¬ Matches state m) ∧
    (∃ m, b.read 4 (TMP.value + 4 * k) = some m ∧ Matches state m) ∧
    b.keyent (v + 4 + 4 * k) = some e

/-- Going from tables to the entries they select, one comes to an entry that is
none, and its string, if it has one, lies in the keymap. -/
inductive Settles : Keyent → Prop
  | plain (e : Keyent) : e.action ≠ .tab →
      (∀ w, e.action = .str w → b.HoldsString w e.value) → Settles e
  | tab (e e' : Keyent) : e.action = .tab → b.Selects state e.value e' → Settles e' → Settles e

variable {b state}

theorem read_le {w p i : ℕ} (h : b.read w p = some i) : p + w ≤ b.length := by
  unfold read at h
  split_ifs at h
  assumption

theorem read_isSome {w p : ℕ} (h : p + w ≤ b.length) : ∃ i, b.read w p = some i :=
  ⟨_, if_pos h⟩

theorem keyent_le {p : ℕ} {e : Keyent} (h : b.keyent p = some e) : p + 4 ≤ b.length := by
  obtain ⟨w, hw, -⟩ := Option.map_eq_some_iff.mp h
  exact read_le hw

/-- A string is read when, and only when, its characters are in the keymap. -/
theorem chars_eq_some_iff {w n p : ℕ} (hp : p ≤ b.length) :
    (∃ cs, b.chars w n p = some cs) ↔ p + w * n ≤ b.length := by
  induction n generalizing p with
  | zero => exact ⟨fun _ => by omega, fun _ => ⟨[], rfl⟩⟩
  | succ n ih =>
      simp only [chars, Option.bind_eq_some_iff, Option.map_eq_some_iff]
      constructor
      · rintro ⟨cs, c, hc, ds, hds, -⟩
        have := (ih (read_le hc)).mp ⟨ds, hds⟩
        rw [Nat.mul_succ]
        omega
      · intro h
        rw [Nat.mul_succ] at h
        have hin : p + w ≤ b.length := by omega
        obtain ⟨c, hc⟩ := read_isSome hin
        obtain ⟨ds, hds⟩ := (ih hin).mpr (by omega)
        exact ⟨c :: ds, c, hc, ds, hds, rfl⟩

theorem chars_length {w n p : ℕ} {cs : List ℕ} (h : b.chars w n p = some cs) :
    cs.length = n := by
  induction n generalizing p cs with
  | zero => cases h; rfl
  | succ n ih =>
      simp only [chars, Option.bind_eq_some_iff, Option.map_eq_some_iff] at h
      obtain ⟨c, -, ds, hds, rfl⟩ := h
      rw [List.length_cons, ih hds]

theorem string_eq_some_iff {w p : ℕ} :
    (∃ cs, b.string w p = some cs) ↔ b.HoldsString w p := by
  simp only [string, Option.bind_eq_some_iff]
  constructor
  · rintro ⟨cs, i, hi, hcs⟩
    exact ⟨i, hi, (chars_eq_some_iff (read_le hi)).mp ⟨cs, hcs⟩⟩
  · rintro ⟨i, hi, hle⟩
    obtain ⟨cs, hcs⟩ := (chars_eq_some_iff (read_le hi)).mpr hle
    exact ⟨cs, i, hi, hcs⟩

/-- A keymap delivers no more characters for a string than it has bytes. -/
theorem string_length {w p : ℕ} (hw : 0 < w) {cs : List ℕ} (h : b.string w p = some cs) :
    cs.length ≤ b.length := by
  obtain ⟨i, hi, hle⟩ := string_eq_some_iff.mp ⟨cs, h⟩
  obtain ⟨i', hi', hcs⟩ := Option.bind_eq_some_iff.mp h
  obtain rfl := Option.some.inj (hi.symm.trans hi')
  rw [chars_length hcs]
  have := Nat.le_mul_of_pos_left (count i) hw
  omega

/-- The search ends with the entry of the first matching mask. -/
theorem search_eq_some_iff {n mp p : ℕ} {e : Keyent} :
    b.search state n mp p = some e ↔ ∃ k < n,
      (∀ j < k, ∃ m, b.read 4 (mp + 4 * j) = some m ∧ ¬ Matches state m) ∧
      (∃ m, b.read 4 (mp + 4 * k) = some m ∧ Matches state m) ∧
      b.keyent (p + 4 * k) = some e := by
  induction n generalizing mp p with
  | zero => simp [search]
  | succ n ih =>
      simp only [search, Option.bind_eq_some_iff]
      constructor
      · rintro ⟨m, hm, h⟩
        split_ifs at h with hmatch
        · exact ⟨0, Nat.succ_pos n, fun j hj => absurd hj (Nat.not_lt_zero j), ⟨m, hm, hmatch⟩, h⟩
        · obtain ⟨k, hk, hbefore, hat, he⟩ := ih.mp h
          refine ⟨k + 1, Nat.succ_lt_succ hk, ?_, ?_, ?_⟩
          · intro j hj
            cases j with
            | zero => exact ⟨m, hm, hmatch⟩
            | succ j =>
                rw [show mp + 4 * (j + 1) = mp + 4 + 4 * j by omega]
                exact hbefore j (Nat.lt_of_succ_lt_succ hj)
          · rwa [show mp + 4 * (k + 1) = mp + 4 + 4 * k by omega]
          · rwa [show p + 4 * (k + 1) = p + 4 + 4 * k by omega]
      · rintro ⟨k, hk, hbefore, hat, he⟩
        cases k with
        | zero =>
            obtain ⟨m, hm, hmatch⟩ := hat
            exact ⟨m, hm, by rwa [if_pos hmatch]⟩
        | succ k =>
            obtain ⟨m, hm, hmatch⟩ := hbefore 0 (Nat.succ_pos k)
            refine ⟨m, hm, ?_⟩
            rw [if_neg hmatch]
            refine ih.mpr ⟨k, Nat.lt_of_succ_lt_succ hk, fun j hj => ?_, ?_, ?_⟩
            · rw [show mp + 4 + 4 * j = mp + 4 * (j + 1) by omega]
              exact hbefore (j + 1) (Nat.succ_lt_succ hj)
            · rwa [show mp + 4 + 4 * k = mp + 4 * (k + 1) by omega]
            · rwa [show p + 4 + 4 * k = p + 4 * (k + 1) by omega]

/-- The bound on the rounds of the search loses nothing. -/
theorem table_eq_some_iff {v : ℕ} {e : Keyent} :
    b.table state v = some e ↔ b.Selects state v e := by
  simp only [table, Option.bind_eq_some_iff, search_eq_some_iff]
  constructor
  · rintro ⟨TMP, hTMP, k, -, hk⟩
    exact ⟨TMP, k, hTMP, hk⟩
  · rintro ⟨TMP, k, hTMP, hbefore, ⟨m, hm, hmatch⟩, he⟩
    have := read_le hm
    exact ⟨TMP, hTMP, k, by omega, hbefore, ⟨m, hm, hmatch⟩, he⟩

/-! ### Nested tables -/

variable (b state) in
/-- Where a table leads. -/
def links (e : Keyent) : Option Keyent :=
  if e.action = .tab then b.table state e.value else none

variable (b) in
/-- An entry that `encode` finishes with. -/
def Final (e : Keyent) : Prop :=
  e.action ≠ .tab ∧ ∀ w, e.action = .str w → b.HoldsString w e.value

theorem Settles.path {e : Keyent} (h : b.Settles state e) :
    ∃ l, Path b.Final (b.links state) e l := by
  induction h with
  | plain e htab hstr => exact ⟨[], .base ⟨htab, hstr⟩⟩
  | tab e e' htab hsel _ ih =>
      obtain ⟨l, hl⟩ := ih
      refine ⟨e :: l, .link (fun hf => hf.1 htab) ?_ hl⟩
      rw [links, if_pos htab]
      exact table_eq_some_iff.mpr hsel

variable (b) in
/-- The entries that stand somewhere in the keymap. -/
def entries : Finset Keyent :=
  ((Finset.range b.length).image b.keyent).eraseNone

theorem mem_entries {p : ℕ} {e : Keyent} (h : b.keyent p = some e) : e ∈ b.entries := by
  have := keyent_le h
  exact Finset.mem_eraseNone.mpr (Finset.mem_image.mpr ⟨p, Finset.mem_range.mpr (by omega), h⟩)

theorem card_entries_le : b.entries.card ≤ b.length := by
  unfold entries
  have himage := Finset.card_image_le (s := Finset.range b.length) (f := b.keyent)
  rw [Finset.card_range] at himage
  exact (Finset.card_eraseNone_le _).trans himage

/-- Where the tables end at all, they end after no more than the keymap has bytes. -/
theorem Settles.short_path {e : Keyent} (h : b.Settles state e) {p : ℕ}
    (he : b.keyent p = some e) :
    ∃ l, Path b.Final (b.links state) e l ∧ l.length ≤ b.length := by
  obtain ⟨l, hl⟩ := h.path
  refine ⟨l, hl, (hl.length_le_of_closed (mem_entries he) ?_).trans card_entries_le⟩
  intro x y hxy
  unfold links at hxy
  split_ifs at hxy
  obtain ⟨_, _, _, _, _, hy⟩ := table_eq_some_iff.mp hxy
  exact mem_entries hy

variable {rep : Bool} {kb : Keyboard} {e : Keyent} {r : Encoded}

/-- An entry that is no table is interpreted at once. -/
theorem encode_of_final (hf : b.Final e) (fuel : ℕ) : ∃ r, b.encode rep fuel kb e = some r := by
  unfold encode
  cases ha : e.action with
  | chr => exact ⟨_, rfl⟩
  | str w =>
      obtain ⟨cs, hcs⟩ := string_eq_some_iff.mpr (hf.2 w ha)
      exact ⟨kb.deliver e cs, by simp only [hcs, Option.map_some]⟩
  | stat => exact ⟨_, rfl⟩
  | tab => exact absurd ha hf.1
  | nop => exact ⟨_, rfl⟩
  | invalid => exact ⟨_, rfl⟩

theorem encode_str {w : ℕ} (ha : e.action = .str w) (fuel : ℕ) :
    b.encode rep fuel kb e = (b.string w e.value).map (kb.deliver e) := by
  unfold encode
  simp only [ha]

theorem encode_tab_zero (ha : e.action = .tab) : b.encode rep 0 kb e = none := by
  unfold encode
  simp only [ha]

theorem encode_tab (ha : e.action = .tab) (fuel : ℕ) :
    b.encode rep (fuel + 1) kb e = (b.table (kb.clear rep).keyboardstate e.value).bind
      (b.encode rep fuel (kb.clear rep)) := by
  conv_lhs => unfold encode
  simp only [ha]

/-- A path of tables is interpreted with as much fuel as it is long. -/
theorem encode_of_path {l : List Keyent}
    (h : Path b.Final (b.links (kb.clear rep).keyboardstate) e l) {fuel : ℕ}
    (hfuel : l.length ≤ fuel) : ∃ r, b.encode rep fuel kb e = some r := by
  generalize hs : (kb.clear rep).keyboardstate = s at h
  induction h generalizing kb fuel with
  | base hf => exact encode_of_final hf fuel
  | @link e e' l _ hlink _ ih =>
      unfold links at hlink
      split_ifs at hlink with ha
      cases fuel with
      | zero => exact absurd hfuel (Nat.not_succ_le_zero _)
      | succ fuel =>
          rw [encode_tab ha, hs, hlink, Option.bind_some]
          exact ih (Nat.le_of_succ_le_succ hfuel) (by rw [Keyboard.clear_clear, hs])

theorem holdsString_of_encode {fuel w : ℕ} (h : b.encode rep fuel kb e = some r)
    (ha : e.action = .str w) : b.HoldsString w e.value := by
  rw [encode_str ha] at h
  obtain ⟨cs, hcs, -⟩ := Option.map_eq_some_iff.mp h
  exact string_eq_some_iff.mp ⟨cs, hcs⟩

/-- What is interpreted at all, with any number of nested tables, settles. -/
theorem settles_of_encode {fuel : ℕ} (h : b.encode rep fuel kb e = some r) :
    b.Settles (kb.clear rep).keyboardstate e := by
  induction fuel generalizing kb e with
  | zero =>
      refine .plain e (fun ha => ?_) fun w => holdsString_of_encode h
      rw [encode_tab_zero ha] at h
      cases h
  | succ fuel ih =>
      by_cases ha : e.action = .tab
      · rw [encode_tab ha] at h
        obtain ⟨e', he', h'⟩ := Option.bind_eq_some_iff.mp h
        have hsettles := ih h'
        rw [Keyboard.clear_clear] at hsettles
        exact .tab e e' ha (table_eq_some_iff.mp he') hsettles
      · exact .plain e ha fun w => holdsString_of_encode h

theorem encode_delivered_of_ne_tab (hb : 0 < b.length) (hne : e.action ≠ .tab) {fuel : ℕ}
    (h : b.encode rep fuel kb e = some r) : r.delivered.length ≤ b.length := by
  cases ha : e.action with
  | str w =>
      rw [encode_str ha] at h
      obtain ⟨cs, hcs, rfl⟩ := Option.map_eq_some_iff.mp h
      rw [Keyboard.deliver, List.length_map]
      exact string_length (e.width_pos ha) hcs
  | tab => exact absurd ha hne
  | chr =>
      unfold encode at h
      simp only [ha] at h
      cases h
      exact hb
  | _ =>
      unfold encode at h
      simp only [ha] at h
      cases h
      exact Nat.zero_le _

/-- One transition delivers no more characters than the keymap has bytes. -/
theorem encode_delivered (hb : 0 < b.length) {fuel : ℕ}
    (h : b.encode rep fuel kb e = some r) : r.delivered.length ≤ b.length := by
  induction fuel generalizing kb e with
  | zero =>
      refine encode_delivered_of_ne_tab hb (fun ha => ?_) h
      rw [encode_tab_zero ha] at h
      cases h
  | succ fuel ih =>
      by_cases ha : e.action = .tab
      · rw [encode_tab ha] at h
        obtain ⟨e', -, h'⟩ := Option.bind_eq_some_iff.mp h
        exact ih h'
      · exact encode_delivered_of_ne_tab hb ha h

/-- An entry of the keymap is interpreted if and only if it settles, and then
with no more nested tables than the keymap has bytes. -/
theorem encode_iff_settles {p : ℕ} (he : b.keyent p = some e) :
    (∃ r, b.encode rep b.length kb e = some r) ↔ b.Settles (kb.clear rep).keyboardstate e := by
  constructor
  · rintro ⟨r, hr⟩
    exact settles_of_encode hr
  · intro h
    obtain ⟨l, hl, hlen⟩ := h.short_path he
    exact encode_of_path hl hlen

end Block

namespace Keymap

variable (km : Keymap) (kb : Keyboard) (ev : Event)

/-- The key's entry stands in the keymap, as do the shift keys looked at for
it, and the entry settles under the state with which it is interpreted. -/
def Settles : Prop :=
  ∃ kb' e, km.shifted ev.rawcode (ev.note kb) = some kb' ∧
    km.keyent (72 + 4 * ev.rawcode) = some e ∧
    km.toBlock.Settles (kb'.clear ev.repeated).keyboardstate e

variable {km kb ev}

theorem safe_iff : km.Safe kb ev ↔ km.Settles kb ev := by
  unfold Safe Settles transition Block.dokb
  constructor
  · rintro ⟨r, hr, -⟩
    obtain ⟨kb', hkb', hr⟩ := Option.bind_eq_some_iff.mp hr
    obtain ⟨e, he, hr⟩ := Option.bind_eq_some_iff.mp hr
    exact ⟨kb', e, hkb', he, Block.settles_of_encode hr⟩
  · rintro ⟨kb', e, hkb', he, hsettles⟩
    obtain ⟨r, hr⟩ := (Block.encode_iff_settles he).mpr hsettles
    have hlen := Block.keyent_le he
    exact ⟨r, by rw [hkb', Option.bind_some, he, Option.bind_some, hr],
      Block.encode_delivered (by omega) hr⟩

/-- In the transitions of any installed keymap, `encode` is safe throughout if and
only if every key's entry settles inside the keymap. -/
theorem transitions_safe_iff (km : Keymap) (kb : Keyboard) (es : List Event) :
    Every km.setKmap.step km.setKmap.Safe kb es ↔
      Every km.setKmap.step km.setKmap.Settles kb es :=
  every_iff (fun _ => True) (fun _ _ _ _ => trivial) (fun _ _ _ => safe_iff) trivial es

end Keymap

/-- A keymap whose first key has a table with itself as its first entry. -/
def selfTable : Block where
  length := 1108
  byte
    | 0 => 0x2a#8
    | 1 => 0x4b#8
    | 6 => 0x04#8
    | 7 => 0x54#8
    | 72 => 0x60#8
    | 74 => 0x04#8
    | 75 => 0x48#8
    | 1098 => 0x04#8
    | 1099 => 0x50#8
    | 1100 => 0x60#8
    | 1102 => 0x04#8
    | 1103 => 0x48#8
    | _ => 0#8

/-- The entry of raw code 0, and of the table at 1096. -/
def selfEntry : Keyent := ⟨6, 0, 1096⟩

def selfKeymap : Keymap := ⟨selfTable, by decide⟩

def idleKeyboard : Keyboard := ⟨fun _ => false, fun _ => false, 0, false⟩

theorem selfKeymap_table : selfKeymap.setKmap.table 0 1096 = some selfEntry := by
  decide

/-- No number of nested tables is enough for it. -/
theorem encode_selfEntry (fuel : ℕ) {kb : Keyboard} (hcleared : kb.clearprefix = false)
    (hstate : kb.keyboardstate = 0) :
    selfKeymap.setKmap.encode false fuel kb selfEntry = none := by
  have hclear : kb.clear false = kb := by
    rw [Keyboard.clear, hcleared]
    rfl
  induction fuel with
  | zero => rfl
  | succ fuel ih =>
      rw [Block.encode_tab rfl, hclear, hstate]
      change (selfKeymap.setKmap.table 0 1096).bind _ = none
      rw [selfKeymap_table, Option.bind_some, ih]

/-- A transparent SIOCSETKMAP installs it, and its first key is interpreted without end. -/
theorem transitions_safe_fails :
    ¬ ∀ i km, srvioc i = some km → ∀ kb es, Every km.setKmap.step
      (fun kb ev => ∃ fuel r, km.setKmap.transition fuel kb ev = some r) kb es := by
  intro h
  have hset : srvioc (.transparent selfTable selfTable) = some selfKeymap := by
    have hlen : selfTable.read 4 4 = some selfTable.length := by decide
    have haccept : headerAccepted selfTable ∧ selfTable.length = selfTable.bigEndian 4 4 ∧
      selfTable.length ≠ sizeofKeymap := by decide
    rw [srvioc, dif_pos hlen, if_pos haccept]
    rfl
  obtain ⟨⟨fuel, r, hr⟩, -⟩ := h _ _ hset idleKeyboard [.key 0#8]
  have htop : selfKeymap.setKmap.keyent 72 = some selfEntry := by decide
  have hnone : selfKeymap.setKmap.transition fuel idleKeyboard (.key 0#8) = none := by
    change (selfKeymap.setKmap.keyent 72).bind
      (selfKeymap.setKmap.encode false fuel (Event.note (.key 0#8) idleKeyboard)) = none
    rw [htop, Option.bind_some]
    exact encode_selfEntry fuel rfl rfl
  rw [hnone] at hr
  cases hr

end HydraAmix.Console.KeyEncode
