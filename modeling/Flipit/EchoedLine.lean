import Flipit.PrintedText

/- The line being edited, as the screen shows it.

   A backspace only takes one column back, so after it has crossed the end of a row the column is
   negative. What counts is the linear position 80 * y + x: a wrap keeps it, a character moves it
   on by one and a backspace back, and a scroll takes 80 off together with the line's own cells
   (`Tty.putc_room`, `Tty.putc_scroll`, `Tty.putc_back`). So the cells from the start of the line
   on are the line, and behind it the cells it has given up are spaces (`EchoedOn`), whatever is
   typed and erased in whatever order (`echoed_line`).

   Correspondence:
     `add_to_buffer`                      ↔ `Kernel.addToBuffer`
     calls of `scroll_the_page_keyboard`  ↔ `Cursor.scrolls` -/
namespace Flipit
open Machine Bytes

/-- How often `putc` scrolls for a character. -/
def Cursor.scrolls (c : UInt8) (cur : Cursor) : Nat :=
  if c = 0x0A ∨ c = 0x0D then if cur.screenY + 1 = 25 then 1 else 0
  else if c = 0x08 then 0
  else if cur.screenX = 80 ∧ cur.screenY + 1 = 25 then 1 else 0

def Cursor.position (cur : Cursor) : Int := 80 * cur.screenY + cur.screenX

/-- A console on which a line was started at position `start`, which has been `longest` characters
long and has scrolled the screen `scrolls` times: from its first cell on it shows the line, and
behind the line spaces as far as it has been. -/
structure EchoedOn (start scrolls longest : Nat) (s : Tty) (l : Line UInt8) : Prop where
  base : 80 * scrolls ≤ start
  onScreen : s.cursor.OnScreen
  position : s.cursor.position = start + l.bufPosition - 80 * scrolls
  shows : ∀ j, j < l.bufPosition → s.page (2 * (start - 80 * scrolls + j)) = l.keyboardBuffer j
  erased : ∀ j, l.bufPosition ≤ j → j < longest → s.page (2 * (start - 80 * scrolls + j)) = 0x20
  reached : l.bufPosition ≤ longest
  room : l.bufPosition ≤ 127
  fits : start + longest ≤ 2000 + 80 * scrolls

/-! ## Positions -/

section
variable {s : Tty} {c : UInt8} {n : Nat} {page : Memory}

theorem setCell_char (page : Memory) (n : Nat) (c : UInt8) : Tty.setCell page n c (2 * n) = c := by
  rw [Tty.setCell, Function.update_of_ne (by omega), Function.update_self]

theorem setCell_ne (page : Memory) (c : UInt8) {i : Nat} (h : i ≠ n) :
    Tty.setCell page n c (2 * i) = page (2 * i) := by
  rw [Tty.setCell, Function.update_of_ne (by omega), Function.update_of_ne (by omega)]

theorem scroll_char (page : Memory) (h : n < 1920) : Tty.scroll page (2 * n) = page (2 * (n + 80)) := by
  rw [Tty.scroll, if_pos (by omega), if_pos (by omega)]
  congr 1

/-- A character that is not one of the three `putc` treats in its own way. -/
structure Printable (c : UInt8) : Prop where
  newline : c ≠ 0x0A
  carriage : c ≠ 0x0D
  backspace : c ≠ 0x08

theorem putc_printable (hc : Printable c) :
    Tty.putc c s =
      let s := if s.cursor.screenX = 80 then Tty.nextRow s else s
      ⟨Tty.setCell s.page (Tty.index s.cursor) c, { s.cursor with screenX := s.cursor.screenX + 1 }⟩ := by
  rw [Tty.putc, if_neg (not_or.mpr ⟨hc.newline, hc.carriage⟩), if_neg hc.backspace]

theorem scrolls_printable (hc : Printable c) (cur : Cursor) :
    cur.scrolls c = if cur.screenX = 80 ∧ cur.screenY + 1 = 25 then 1 else 0 := by
  rw [Cursor.scrolls, if_neg (not_or.mpr ⟨hc.newline, hc.carriage⟩), if_neg hc.backspace]

/-- A character with room on the screen goes into the cell of the position, in whichever row. -/
theorem Tty.putc_room (hon : s.cursor.OnScreen) (hc : Printable c) (hn : s.cursor.position = n) (h : n < 2000) :
    (Tty.putc c s).page = Tty.setCell s.page n c ∧ (Tty.putc c s).cursor.position = n + 1 ∧
    (Tty.putc c s).cursor.OnScreen ∧ s.cursor.scrolls c = 0 := by
  obtain ⟨hlow, hrow, hcol⟩ := hon
  unfold Cursor.position at hn
  have hscrolls : s.cursor.scrolls c = 0 := by
    rw [scrolls_printable hc, if_neg (by omega)]
  rw [putc_printable hc]
  by_cases hx : s.cursor.screenX = 80
  · -- a full row: the wrap keeps the position
    have hnext : Tty.nextRow s =
        { s with cursor := { s.cursor with screenY := s.cursor.screenY + 1, screenX := 0 } } :=
      if_neg (by omega)
    have hindex : (80 * (s.cursor.screenY + 1) + 0).toNat = n := by omega
    simp only [if_pos hx, hnext, Tty.index, hindex, Cursor.position]
    exact ⟨trivial, by omega, ⟨by dsimp only; omega, by dsimp only; omega, by dsimp only; omega⟩, hscrolls⟩
  · have hindex : (80 * s.cursor.screenY + s.cursor.screenX).toNat = n := by omega
    simp only [if_neg hx, Tty.index, hindex, Cursor.position]
    exact ⟨trivial, by omega, ⟨by dsimp only; omega, by dsimp only; omega, by dsimp only; omega⟩, hscrolls⟩

theorem Tty.putc_scroll (hon : s.cursor.OnScreen) (hc : Printable c) (hn : s.cursor.position = 2000) :
    (Tty.putc c s).page = Tty.setCell (Tty.scroll s.page) 1920 c ∧ (Tty.putc c s).cursor.position = 1921 ∧
    (Tty.putc c s).cursor.OnScreen ∧ s.cursor.scrolls c = 1 := by
  obtain ⟨hlow, hrow, hcol⟩ := hon
  unfold Cursor.position at hn
  obtain ⟨hx, hy⟩ : s.cursor.screenX = 80 ∧ s.cursor.screenY = 24 := by omega
  have hnext : Tty.nextRow s = ⟨Tty.scroll s.page, { s.cursor with screenY := s.cursor.screenY, screenX := 0 }⟩ :=
    if_pos (by omega)
  have hscrolls : s.cursor.scrolls c = 1 := by
    rw [scrolls_printable hc, if_pos (by omega)]
  rw [putc_printable hc]
  simp only [if_pos hx, hnext, Tty.index, hy, Cursor.position]
  exact ⟨rfl, by omega, ⟨by dsimp only; omega, by dsimp only; omega, by dsimp only; omega⟩, hscrolls⟩

/-- A backspace blanks the cell before the position, also across the end of a row. -/
theorem Tty.putc_back (hon : s.cursor.OnScreen) (hn : s.cursor.position = n + 1) :
    (Tty.putc 0x08 s).page = Tty.setCell s.page n 0x20 ∧ (Tty.putc 0x08 s).cursor.position = n ∧
    (Tty.putc 0x08 s).cursor.OnScreen := by
  obtain ⟨hlow, hrow, hcol⟩ := hon
  unfold Cursor.position at hn
  have hindex : (80 * s.cursor.screenY + (s.cursor.screenX - 1)).toNat = n := by omega
  rw [Tty.putc, if_neg (by decide), if_pos rfl]
  simp only [Tty.index, hindex, Cursor.position]
  exact ⟨trivial, by omega, ⟨by dsimp only; omega, by dsimp only; omega, by dsimp only; omega⟩⟩

end

/-! ## The line -/

section
variable {start scrolls longest : Nat} {s : Tty} {l : Line UInt8} {c : UInt8}

theorem put_last (l : Line UInt8) (c : UInt8) : (l.put c).keyboardBuffer l.bufPosition = c := by
  simp [Line.put]

theorem put_before (l : Line UInt8) (c : UInt8) {j : Nat} (h : j < l.bufPosition) :
    (l.put c).keyboardBuffer j = l.keyboardBuffer j := by
  simp [Line.put, Nat.ne_of_lt h]

theorem erase_before (l : Line UInt8) {j : Nat} (h : j < l.erase.bufPosition) :
    l.erase.keyboardBuffer j = l.keyboardBuffer j := by
  simp [Line.erase, Nat.ne_of_lt (show j < l.bufPosition - 1 from h)]

theorem EchoedOn.put_room (h : EchoedOn start scrolls longest s l) (hc : Printable c) (hfull : l.bufPosition < 127)
    (hroom : start + l.bufPosition < 2000 + 80 * scrolls) :
    EchoedOn start (scrolls + s.cursor.scrolls c) (max longest (l.put c).bufPosition) (Tty.putc c s) (l.put c) := by
  have hbase := h.base
  have hpos : s.cursor.position = (start - 80 * scrolls + l.bufPosition : Nat) := by
    rw [h.position]
    omega
  obtain ⟨hpage, hpos', hon, hscrolls⟩ := Tty.putc_room h.onScreen hc hpos (by omega)
  have hput : (l.put c).bufPosition = l.bufPosition + 1 := rfl
  have hfits := h.fits
  rw [hscrolls, Nat.add_zero]
  refine ⟨hbase, hon, by omega, fun j hj => ?_, fun j hj hlong => ?_, by omega, by omega, by omega⟩
  · rw [hpage]
    by_cases hlast : j = l.bufPosition
    · rw [hlast, setCell_char, put_last]
    · rw [setCell_ne _ _ (by omega), h.shows j (by omega), put_before l c (by omega)]
  · rw [hpage, setCell_ne _ _ (by omega)]
    exact h.erased j (by omega) (by omega)

/-- A character behind the last cell: the line moves up with the screen, and it has not been
longer than it is. -/
theorem EchoedOn.put_scroll (h : EchoedOn start scrolls longest s l) (hc : Printable c)
    (hfull : l.bufPosition < 127) (hend : start + l.bufPosition = 2000 + 80 * scrolls) :
    EchoedOn start (scrolls + s.cursor.scrolls c) (max longest (l.put c).bufPosition) (Tty.putc c s) (l.put c) := by
  have hpos : s.cursor.position = 2000 := by
    rw [h.position]
    omega
  obtain ⟨hpage, hpos', hon, hscrolls⟩ := Tty.putc_scroll h.onScreen hc hpos
  have hput : (l.put c).bufPosition = l.bufPosition + 1 := rfl
  have hlong := h.fits
  have hreached := h.reached
  rw [hscrolls]
  refine ⟨by omega, hon, by omega, fun j hj => ?_, fun j hj hlong => by omega, by omega, by omega, by omega⟩
  rw [hpage]
  by_cases hlast : j = l.bufPosition
  · rw [hlast, show start - 80 * (scrolls + 1) + l.bufPosition = 1920 by omega, setCell_char, put_last]
  · rw [setCell_ne _ _ (by omega), scroll_char _ (by omega),
      show start - 80 * (scrolls + 1) + j + 80 = start - 80 * scrolls + j by omega, h.shows j (by omega),
      put_before l c (by omega)]

theorem EchoedOn.put (h : EchoedOn start scrolls longest s l) (hc : Printable c) (hfull : l.bufPosition < 127) :
    EchoedOn start (scrolls + s.cursor.scrolls c) (max longest (l.put c).bufPosition) (Tty.putc c s) (l.put c) := by
  by_cases hroom : start + l.bufPosition < 2000 + 80 * scrolls
  · exact h.put_room hc hfull hroom
  · have hfits := h.fits
    have hreached := h.reached
    exact h.put_scroll hc hfull (by omega)

theorem EchoedOn.erase (h : EchoedOn start scrolls longest s l) (hsome : l.bufPosition ≠ 0) :
    EchoedOn start (scrolls + s.cursor.scrolls 0x08) (max longest l.erase.bufPosition) (Tty.putc 0x08 s)
      l.erase := by
  have hbase := h.base
  have hfits := h.fits
  have hreached := h.reached
  have hroom := h.room
  have hpos : s.cursor.position = ((start - 80 * scrolls + (l.bufPosition - 1) : Nat) : Int) + 1 := by
    rw [h.position]
    omega
  obtain ⟨hpage, hpos', hon⟩ := Tty.putc_back h.onScreen hpos
  have herase : l.erase.bufPosition = l.bufPosition - 1 := rfl
  have hscrolls : s.cursor.scrolls 0x08 = 0 := by
    rw [Cursor.scrolls, if_neg (by decide), if_pos rfl]
  rw [hscrolls, Nat.add_zero]
  refine ⟨hbase, hon, by omega, fun j hj => ?_, fun j hj hlong => ?_, by omega, by omega, by omega⟩
  · rw [hpage, setCell_ne _ _ (by omega), h.shows j (by omega), erase_before l hj]
  · rw [hpage]
    by_cases hlast : j = l.bufPosition - 1
    · rw [hlast, setCell_char]
    · rw [setCell_ne _ _ (by omega)]
      exact h.erased j (by omega) (by omega)

theorem echoedOn_start (hx : 0 ≤ s.cursor.screenX ∧ s.cursor.screenX ≤ 80)
    (hy : 0 ≤ s.cursor.screenY ∧ s.cursor.screenY < 25) (hempty : l.bufPosition = 0) :
    EchoedOn s.cursor.position.toNat 0 0 s l := by
  have hpos : 0 ≤ s.cursor.position ∧ s.cursor.position ≤ 2000 := by
    unfold Cursor.position
    omega
  refine ⟨by omega, ⟨hpos.1, hy.2, hx.2⟩, by omega, fun j hj => by omega, fun j hj hlong => by omega, by omega,
    by omega, by omega⟩

end

/-! ## The keys -/

/-- The keys of a line: the state, how often the screen has scrolled and how long the line has
been. -/
structure Typing where
  kernel : Kernel
  scrolls : Nat
  longest : Nat

/-- `add_to_buffer` of one key. The screen scrolls if the key is echoed and its echo scrolls. -/
def Typing.key (t : Typing) (c : UInt8) : Option Typing :=
  (t.kernel.addToBuffer c).map fun k =>
    { kernel := k
      scrolls := t.scrolls + if (t.kernel.input.addToBuffer t.kernel.currentVisible c).2
        then (t.kernel.cursor t.kernel.currentVisible).scrolls c else 0
      longest := max t.longest (k.input.line k.currentVisible).bufPosition }

/-- The visible console shows the line being edited. -/
structure Typing.Shows (start : Nat) (v : Fin 3) (t : Typing) : Prop where
  visible : t.kernel.Visible v
  echoed : EchoedOn start t.scrolls t.longest (logical t.kernel v) (t.kernel.input.line v.val)

variable {t : Typing} {start : Nat} {v : Fin 3} {c : UInt8}

theorem Typing.Shows.echo {f : Line UInt8 → Line UInt8} (h : t.Shows start v)
    (hadd : t.kernel.input.addToBuffer t.kernel.currentVisible c =
      (t.kernel.input.onLine t.kernel.currentVisible f, true))
    (hback : c = 0x08 → 0 < (t.kernel.cursor v.val).position)
    (hline : EchoedOn start (t.scrolls + (t.kernel.cursor v.val).scrolls c)
      (max t.longest (f (t.kernel.input.line v.val)).bufPosition) (Tty.putc c (logical t.kernel v))
      (f (t.kernel.input.line v.val))) :
    ∃ t', t.key c = some t' ∧ t'.Shows start v := by
  have hv := h.visible.number
  let k : Kernel := { t.kernel with input := t.kernel.input.onLine t.kernel.currentVisible f }
  have hk : k.Visible v := ⟨h.visible.number, h.visible.door⟩
  have hon : (k.cursor v.val).OnScreen := h.echoed.onScreen
  have hput : k.putcKeyboard c = some (k.withScreen v (Tty.putc c (logical k v))) :=
    (printsOn_keyboard v).putc hk hon hback
  have hpaged : Paged (Tty.putc c (logical k v)).page := putc_paged pageAt_paged hon c
  have hkey : t.kernel.addToBuffer c = some (k.withScreen v (Tty.putc c (logical k v))) := by
    rw [Kernel.addToBuffer, hadd]
    exact hput
  have hinput : (k.withScreen v (Tty.putc c (logical k v))).input.line v.val =
      f (t.kernel.input.line v.val) := by
    rw [← hv]
    exact Input.onLine_line ..
  rw [Typing.key, hkey, hadd]
  refine ⟨_, rfl, (printsOn_keyboard v).keep hk, ?_⟩
  simp only [logical_withScreen hpaged, if_true, hinput]
  have hsame : (k.withScreen v (Tty.putc c (logical k v))).currentVisible = v.val := hv
  rw [hsame, hinput, hv]
  exact hline

theorem Typing.Shows.ignored (h : t.Shows start v)
    (hadd : t.kernel.input.addToBuffer t.kernel.currentVisible c = (t.kernel.input, false)) :
    ∃ t', t.key c = some t' ∧ t'.Shows start v := by
  have hkey : t.kernel.addToBuffer c = some t.kernel := by
    rw [Kernel.addToBuffer, hadd]
    rfl
  have hlong : max t.longest (t.kernel.input.line t.kernel.currentVisible).bufPosition = t.longest := by
    rw [h.visible.number]
    exact Nat.max_eq_left h.echoed.reached
  rw [Typing.key, hkey, hadd]
  refine ⟨_, rfl, h.visible, ?_⟩
  simp only [hlong]
  exact h.echoed

theorem addToBuffer_backspace (inp : Input UInt8) (i : Int) :
    inp.addToBuffer i 0x08 =
      if (inp.line i).bufPosition ≠ 0 then (inp.onLine i Line.erase, true) else (inp, false) := rfl

theorem addToBuffer_char (inp : Input UInt8) (i : Int) (hc : Printable c) :
    inp.addToBuffer i c =
      if (inp.line i).bufPosition = 127 then (inp, false) else (inp.onLine i fun l => l.put c, true) := by
  have hnewline : Typed.code c ≠ 0x0A := hc.newline
  have hbackspace : Typed.code c ≠ 0x08 := hc.backspace
  rw [Input.addToBuffer, if_neg hnewline, if_neg hbackspace]

/-- One key that is no Enter: a character, a backspace, or one of them that the line has no room
for. -/
theorem Typing.Shows.key (h : t.Shows start v) (hc : c = 0x08 ∨ Printable c) :
    ∃ t', t.key c = some t' ∧ t'.Shows start v := by
  have hv := h.visible.number
  have hroom := h.echoed.room
  by_cases hback : c = 0x08
  · subst hback
    by_cases hempty : (t.kernel.input.line v.val).bufPosition = 0
    · apply h.ignored
      rw [addToBuffer_backspace, hv, if_neg (not_not.mpr hempty)]
    · apply h.echo (f := Line.erase) _ _ (h.echoed.erase hempty)
      · rw [addToBuffer_backspace, hv, if_pos hempty]
      · intro _
        have hbase := h.echoed.base
        have hpos : (t.kernel.cursor v.val).position = _ := h.echoed.position
        omega
  · have hchar : Printable c := hc.resolve_left hback
    by_cases hfull : (t.kernel.input.line v.val).bufPosition = 127
    · apply h.ignored
      rw [addToBuffer_char _ _ hchar, hv, if_pos hfull]
    · apply h.echo (f := fun l => l.put c) _ _ (h.echoed.put hchar (by omega))
      · rw [addToBuffer_char _ _ hchar, hv, if_neg hfull]
      · intro he
        exact absurd he hback

theorem Typing.Shows.keys (h : t.Shows start v) {keys : List UInt8}
    (hkeys : ∀ c ∈ keys, c = 0x08 ∨ Printable c) :
    ∃ t', keys.foldlM Typing.key t = some t' ∧ t'.Shows start v := by
  induction keys generalizing t with
  | nil => exact ⟨t, rfl, h⟩
  | cons c keys ih =>
    obtain ⟨t1, hkey, h1⟩ := h.key (hkeys c (.head _))
    obtain ⟨t', hr, h'⟩ := ih h1 fun c hc => hkeys c (.tail _ hc)
    exact ⟨t', by rw [List.foldlM_cons, hkey]; exact hr, h'⟩

theorem typing_kernel (keys : List UInt8) (t : Typing) :
    (keys.foldlM Typing.key t).map Typing.kernel = keys.foldlM Kernel.addToBuffer t.kernel := by
  induction keys generalizing t with
  | nil => rfl
  | cons c keys ih =>
    rw [List.foldlM_cons, List.foldlM_cons, Typing.key]
    cases t.kernel.addToBuffer c with
    | none => rfl
    | some k => exact ih _

/-- On the page tables of any state of a run from boot, with the cursor of the visible terminal
anywhere on the screen and its line empty, any sequence of characters and backspaces: no key
faults, and after it the cursor is `buf_position` cells behind where it started, less 80 for every
scroll, the cells from the start on show the buffer, and the cells the line has given up are
spaces. -/
theorem echoed_line (fs : Fs) (q : Paging) (mem : Memory) (es : List Event) (k0 k : Kernel) (v : Fin 3)
    (hrun : run (Kernel.step fs) (Kernel.boot q mem) es = some k0) (hpaging : k.paging = k0.paging)
    (hsame : k.currentVisible = k0.currentVisible) (hv : k.currentVisible = v.val)
    (hx : 0 ≤ (k.cursor v.val).screenX ∧ (k.cursor v.val).screenX ≤ 80)
    (hy : 0 ≤ (k.cursor v.val).screenY ∧ (k.cursor v.val).screenY < 25)
    (hempty : (k.input.line v.val).bufPosition = 0) (keys : List UInt8)
    (hkeys : ∀ c ∈ keys, c = 0x08 ∨ Printable c) :
    ∃ t, keys.foldlM Typing.key ⟨k, 0, 0⟩ = some t ∧ keys.foldlM Kernel.addToBuffer k = some t.kernel ∧
      EchoedOn (k.cursor v.val).position.toNat t.scrolls t.longest (logical t.kernel v)
        (t.kernel.input.line v.val) := by
  obtain ⟨last, hmapped⟩ := Kernel.mapped_run hrun
  have hvisible : k.Visible v := by
    refine ⟨hv, ?_⟩
    rw [hpaging]
    exact (hmapped.visible (hsame ▸ hv)).door
  have hstart : Typing.Shows (k.cursor v.val).position.toNat v ⟨k, 0, 0⟩ :=
    ⟨hvisible, echoedOn_start (s := logical k v) hx hy hempty⟩
  obtain ⟨t, hr, ht⟩ := hstart.keys hkeys
  refine ⟨t, hr, ?_, ht.echoed⟩
  rw [← typing_kernel keys ⟨k, 0, 0⟩, hr]
  rfl

/-- The first shell, with the cursor behind the last cell of the screen: a character scrolls, a
backspace takes it back. -/
theorem echoed_line_bottom : ∃ k t,
    (∃ k0, run (Kernel.step smallFs) (Kernel.boot linkedPaging fun _ => 0) [.tick 0 0 zeroEnv] = some k0 ∧
      k = { k0 with cursor := fun _ => ⟨80, 24, 0⟩ }) ∧
    [0x61, 0x62, 0x08].foldlM Typing.key ⟨k, 0, 0⟩ = some t ∧
    EchoedOn 2000 t.scrolls t.longest (logical t.kernel 0) (t.kernel.input.line 0) := by
  have hrun : (run (Kernel.step smallFs) (Kernel.boot linkedPaging fun _ => 0)
      [.tick 0 0 zeroEnv]).map (fun k => (k.currentVisible, (k.input.line 0).bufPosition)) = some (0, 0) := by
    decide +kernel
  obtain ⟨k0, hr, hq⟩ := Option.map_eq_some_iff.mp hrun
  obtain ⟨hv, hempty⟩ := Prod.mk.inj hq
  obtain ⟨t, ht, -, hshows⟩ := echoed_line smallFs linkedPaging (fun _ => 0) _ k0
    { k0 with cursor := fun _ => ⟨80, 24, 0⟩ } 0 hr rfl rfl hv
    ⟨(by decide : (0 : Int) ≤ 80), (by decide : (80 : Int) ≤ 80)⟩
    ⟨(by decide : (0 : Int) ≤ 24), (by decide : (24 : Int) < 25)⟩ hempty
    [0x61, 0x62, 0x08] (by
      intro c hc
      simp only [List.mem_cons, List.not_mem_nil, or_false] at hc
      rcases hc with rfl | rfl | rfl
      · exact .inr ⟨by decide, by decide, by decide⟩
      · exact .inr ⟨by decide, by decide, by decide⟩
      · exact .inl rfl)
  exact ⟨_, t, ⟨k0, hr, rfl⟩, ht, hshows⟩

end Flipit
