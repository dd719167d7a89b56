import Flipit.Bytes
import Flipit.Machine
import Flipit.Paging

/- The console of `lib.c` and the page copies of `term_visible_switch`.

   `putc` and `putc_keyboard` are one routine over two windows: the first writes
   through the page at 0xB8000, which `term_page_switch` moves, with the cursor of
   the scheduled terminal; the second through the back door at 0xBC000, which
   always shows the VGA frame, with the cursor of the visible terminal. Every store
   and load is translated, so a store outside a mapped page is a fault (`none`).

   A `Tty` is a console of its own: one page and one cursor. `Window.putcVia` says
   that through a window on a frame the routine is `Tty.putc` on that frame, and
   touches nothing else.

   Correspondence:
     `putc`, `putc_keyboard`                        ↔ `putcVia` at the two windows
     `scroll_the_page`, `scroll_the_page_keyboard`  ↔ `scrollThePage`
     `clear`                                        ↔ `clearVia`
     `memcpy` of one page                           ↔ `copyPage` -/
namespace Flipit
open Bytes

/-- The console fields of `terminal_t`. -/
structure Cursor where
  screenX : Int
  screenY : Int
  previousBufLength : Int
  deriving DecidableEq

namespace Paging

/-- A kernel store at a 32-bit address. -/
def store (p : Paging) (m : Memory) (v : Int) (b : UInt8) : Option Memory :=
  (p.translate ⟨false, true⟩ (v % 2 ^ 32).toNat).map fun a => Function.update m a b

/-- A kernel load at a 32-bit address. -/
def load (p : Paging) (m : Memory) (v : Int) : Option UInt8 :=
  (p.translate ⟨false, false⟩ (v % 2 ^ 32).toNat).map m

/-- `memcpy` of 4096 bytes between page-aligned addresses: each side is one page. -/
def copyPage (p : Paging) (m : Memory) (dest src : Nat) : Option Memory :=
  (p.translate ⟨false, true⟩ dest).bind fun d =>
    (p.translate ⟨false, false⟩ src).map fun s =>
      fun a => if d ≤ a ∧ a < d + 4096 then m (s + (a - d)) else m a

/-- The address of the character at row `y`, column `x`. -/
def cell (base : Nat) (y x : Int) : Int := base + 2 * (80 * y + x)

/-- A character and its attribute. -/
def putCell (p : Paging) (base : Nat) (m : Memory) (y x : Int) (c : UInt8) : Option Memory :=
  (p.store m (cell base y x) c).bind fun m => p.store m (cell base y x + 1) 0x7

/-- One turn of the copying loop of `scroll_the_page`. -/
def liftCell (p : Paging) (base : Nat) (y : Nat) (m : Memory) (x : Nat) : Option Memory :=
  (p.load m (cell base (y + 1) x)).bind fun c => p.putCell base m y x c

def scrollThePage (p : Paging) (base : Nat) (m : Memory) (cur : Cursor) : Option (Memory × Cursor) :=
  ((List.range 24).foldlM (fun m y => (List.range 80).foldlM (p.liftCell base y) m) m).bind fun m =>
    ((List.range 80).foldlM (fun m (x : Nat) => p.putCell base m 24 x 0x20) m).map fun m =>
      (m, { cur with screenY := cur.screenY - 1 })

/-- To the start of the next row, scrolling at the bottom. -/
def nextRow (p : Paging) (base : Nat) (m : Memory) (cur : Cursor) : Option (Memory × Cursor) :=
  let cur := { cur with screenY := cur.screenY + 1, screenX := 0 }
  if cur.screenY = 25 then p.scrollThePage base m cur else some (m, cur)

/-- `putc` over the window at `base` with the cursor `cur`. -/
def putcVia (p : Paging) (base : Nat) (c : UInt8) (m : Memory) (cur : Cursor) :
    Option (Memory × Cursor) :=
  if c = 0x0A ∨ c = 0x0D then p.nextRow base m { cur with previousBufLength := 0 }
  else if c = 0x08 then
    let cur := { cur with screenX := cur.screenX - 1 }
    (p.putCell base m cur.screenY cur.screenX 0x20).map fun m => (m, cur)
  else
    (if cur.screenX = 80 then p.nextRow base m cur else some (m, cur)).bind fun (m, cur) =>
      (p.putCell base m cur.screenY cur.screenX c).map fun m =>
        (m, { cur with screenX := cur.screenX + 1 })

/-- `clear`: 2000 blanks, cursor home. -/
def clearVia (p : Paging) (base : Nat) (m : Memory) : Option (Memory × Cursor) :=
  ((List.range 2000).foldlM (fun m (i : Nat) => p.putCell base m 0 i 0x20) m).map fun m => (m, ⟨0, 0, 0⟩)

end Paging

/-! ## A console of its own -/

/-- A page (offsets below 4096) and a cursor. -/
structure Tty where
  page : Memory
  cursor : Cursor

namespace Tty

/-- A character and its attribute in cell `n`. -/
def setCell (page : Memory) (n : Nat) (c : UInt8) : Memory :=
  Function.update (Function.update page (2 * n) c) (2 * n + 1) 0x7

/-- Every row one up, the last one blank. -/
def scroll (page : Memory) : Memory := fun o =>
  if o < 3840 then if o % 2 = 0 then page (o + 160) else 0x7
  else if o < 4000 then if o % 2 = 0 then 0x20 else 0x7
  else page o

def nextRow (s : Tty) : Tty :=
  if s.cursor.screenY + 1 = 25 then
    ⟨scroll s.page, { s.cursor with screenY := s.cursor.screenY, screenX := 0 }⟩
  else { s with cursor := { s.cursor with screenY := s.cursor.screenY + 1, screenX := 0 } }

def index (cur : Cursor) : Nat := (80 * cur.screenY + cur.screenX).toNat

def putc (c : UInt8) (s : Tty) : Tty :=
  if c = 0x0A ∨ c = 0x0D then nextRow { s with cursor := { s.cursor with previousBufLength := 0 } }
  else if c = 0x08 then
    let cur := { s.cursor with screenX := s.cursor.screenX - 1 }
    ⟨setCell s.page (index cur) 0x20, cur⟩
  else
    let s := if s.cursor.screenX = 80 then nextRow s else s
    ⟨setCell s.page (index s.cursor) c, { s.cursor with screenX := s.cursor.screenX + 1 }⟩

end Tty

/-- The cursor is on the screen: its cell is not before the first one, its row is one of
the 25 and its column at most one past the last. -/
structure Cursor.OnScreen (cur : Cursor) : Prop where
  low : 0 ≤ 80 * cur.screenY + cur.screenX
  row : cur.screenY < 25
  col : cur.screenX ≤ 80

/-- The frame's page, as offsets. -/
def pageAt (m : Memory) (frame : Nat) : Memory := fun o => if o < 4096 then m (frame + o) else 0

/-- The kernel reads and writes the frame through the page at `base`. -/
structure Window (p : Paging) (base frame : Nat) : Prop where
  fits : base + 4096 ≤ 2 ^ 32
  maps : ∀ o, o < 4096 → ∀ w, p.translate ⟨false, w⟩ (base + o) = some (frame + o)

/-- The memory that holds `page` in the frame and is `m` elsewhere. -/
def withPage (m : Memory) (frame : Nat) (page : Memory) : Memory :=
  fun a => if frame ≤ a ∧ a < frame + 4096 then page (a - frame) else m a

variable {p : Paging} {base frame : Nat} {m page : Memory}

theorem withPage_in {o : Nat} (h : o < 4096) : withPage m frame page (frame + o) = page o := by
  unfold withPage
  rw [if_pos (by omega), Nat.add_sub_cancel_left]

theorem withPage_out {a : Nat} (h : a < frame ∨ frame + 4096 ≤ a) :
    withPage m frame page a = m a := if_neg (by omega)

theorem withPage_pageAt : withPage m frame (pageAt m frame) = m := by
  funext a
  unfold withPage pageAt
  by_cases h : frame ≤ a ∧ a < frame + 4096
  · rw [if_pos h, if_pos (by omega), Nat.add_sub_cancel' h.1]
  · rw [if_neg h]

theorem withPage_update {o : Nat} (h : o < 4096) (b : UInt8) :
    Function.update (withPage m frame page) (frame + o) b =
      withPage m frame (Function.update page o b) := by
  funext a
  unfold withPage
  by_cases ha : frame ≤ a ∧ a < frame + 4096
  · by_cases he : a = frame + o
    · subst he; simp [h]
    · rw [Function.update_of_ne he, if_pos ha, if_pos ha, Function.update_of_ne (by omega)]
  · rw [Function.update_of_ne (by omega), if_neg ha, if_neg ha]

/-- A page with nothing behind its 4096 bytes. -/
def Paged (page : Memory) : Prop := ∀ o, 4096 ≤ o → page o = 0

theorem pageAt_paged : Paged (pageAt m frame) := fun _ h => if_neg (by omega)

theorem pageAt_withPage (hp : Paged page) : pageAt (withPage m frame page) frame = page := by
  funext o
  unfold pageAt
  by_cases h : o < 4096
  · rw [if_pos h, withPage_in h]
  · rw [if_neg h, hp o (by omega)]

/-! ## The routines through a window -/

theorem Window.store (hw : Window p base frame) {o : Nat} (h : o < 4096) (b : UInt8) :
    p.store (withPage m frame page) ((base + o : Nat) : Int) b =
      some (withPage m frame (Function.update page o b)) := by
  have hf := hw.fits
  have he : (((base + o : Nat) : Int) % 2 ^ 32).toNat = base + o := by omega
  rw [Paging.store, he, hw.maps o h, Option.map_some, withPage_update h]

theorem Window.load (hw : Window p base frame) {o : Nat} (h : o < 4096) :
    p.load (withPage m frame page) ((base + o : Nat) : Int) = some (page o) := by
  have hf := hw.fits
  have he : (((base + o : Nat) : Int) % 2 ^ 32).toNat = base + o := by omega
  rw [Paging.load, he, hw.maps o h, Option.map_some, withPage_in h]

theorem Window.putCell (hw : Window p base frame) {y x : Int} {n : Nat} (hn : 80 * y + x = n)
    (h : n < 2048) (c : UInt8) :
    p.putCell base (withPage m frame page) y x c = some (withPage m frame (Tty.setCell page n c)) := by
  have hc : Paging.cell base y x = ((base + 2 * n : Nat) : Int) := by
    unfold Paging.cell; omega
  have hc1 : ((base + 2 * n : Nat) : Int) + 1 = ((base + (2 * n + 1) : Nat) : Int) := by omega
  rw [Paging.putCell, hc, hw.store (by omega), Option.bind_some, hc1, hw.store (by omega)]
  rfl

/-- The page after `n` cells of the copying loop. -/
def Tty.lifted (page : Memory) (n : Nat) : Memory := fun o =>
  if o < 2 * n then if o % 2 = 0 then page (o + 160) else 0x7 else page o

theorem Window.liftCell (hw : Window p base frame) {y x : Nat} (hy : y < 24) (hx : x < 80) :
    p.liftCell base y (withPage m frame (Tty.lifted page (80 * y + x))) x =
      some (withPage m frame (Tty.lifted page (80 * y + x + 1))) := by
  have hc : Paging.cell base (y + 1) x = ((base + 2 * (80 * (y + 1) + x) : Nat) : Int) := by
    unfold Paging.cell; omega
  rw [Paging.liftCell, hc, hw.load (by omega), Option.bind_some,
    hw.putCell (n := 80 * y + x) (by omega) (by omega)]
  congr 2
  funext o
  -- the two bytes of the cell, then the rest of the page
  unfold Tty.setCell Tty.lifted
  simp only [Function.update_apply]
  by_cases h1 : o = 2 * (80 * y + x) + 1
  · rw [if_pos h1, if_pos (by omega), if_neg (by omega)]
  by_cases h0 : o = 2 * (80 * y + x)
  · rw [if_neg h1, if_pos h0, if_neg (by omega), if_pos (by omega), if_pos (by omega)]
    congr 1; omega
  · rw [if_neg h1, if_neg h0]
    by_cases h : o < 2 * (80 * y + x)
    · rw [if_pos h, if_pos (show o < 2 * (80 * y + x + 1) by omega)]
    · rw [if_neg h, if_neg (by omega)]

theorem Window.liftRows (hw : Window p base frame) :
    (List.range 24).foldlM (fun m y => (List.range 80).foldlM (p.liftCell base y) m)
      (withPage m frame page) = some (withPage m frame (Tty.lifted page 1920)) := by
  have hrow := Machine.foldlM_range
    (f := fun m y => (List.range 80).foldlM (p.liftCell base y) m)
    (fun y => withPage m frame (Tty.lifted page (80 * y))) (n := 24) fun y hy =>
      Machine.foldlM_range (f := p.liftCell base y)
        (fun x => withPage m frame (Tty.lifted page (80 * y + x))) (n := 80) fun x hx =>
          hw.liftCell hy hx
  have h0 : Tty.lifted page (80 * 0) = page := by funext o; exact if_neg (by omega)
  simpa only [h0] using hrow

/-- The page after `x` cells of the blanking loop. -/
def Tty.blanked (page : Memory) (x : Nat) : Memory := fun o =>
  if 3840 ≤ o ∧ o < 3840 + 2 * x then if o % 2 = 0 then 0x20 else 0x7 else page o

theorem Window.blankRow (hw : Window p base frame) :
    (List.range 80).foldlM (fun m (x : Nat) => p.putCell base m 24 x 0x20) (withPage m frame page) =
      some (withPage m frame (Tty.blanked page 80)) := by
  have hrow := Machine.foldlM_range (f := fun m (x : Nat) => p.putCell base m 24 x 0x20)
    (fun x => withPage m frame (Tty.blanked page x)) (n := 80) fun x hx => by
      rw [hw.putCell (n := 1920 + x) (by omega) (by omega)]
      congr 2
      funext o
      unfold Tty.setCell Tty.blanked
      simp only [Function.update_apply]
      by_cases h1 : o = 2 * (1920 + x) + 1
      · rw [if_pos h1, if_pos (by omega), if_neg (by omega)]
      by_cases h0 : o = 2 * (1920 + x)
      · rw [if_neg h1, if_pos h0, if_pos (by omega), if_pos (by omega)]
      · rw [if_neg h1, if_neg h0]
        by_cases h : 3840 ≤ o ∧ o < 3840 + 2 * x
        · rw [if_pos h, if_pos (show 3840 ≤ o ∧ o < 3840 + 2 * (x + 1) by omega)]
        · rw [if_neg h, if_neg (by omega)]
  have h0 : Tty.blanked page 0 = page := by funext o; exact if_neg (by omega)
  simpa only [h0] using hrow

theorem Window.scrollThePage (hw : Window p base frame) (cur : Cursor) :
    p.scrollThePage base (withPage m frame page) cur =
      some (withPage m frame (Tty.scroll page), { cur with screenY := cur.screenY - 1 }) := by
  rw [Paging.scrollThePage, hw.liftRows, Option.bind_some, hw.blankRow, Option.map_some]
  congr 3
  funext o
  unfold Tty.blanked Tty.lifted Tty.scroll
  by_cases h : o < 3840
  · rw [if_neg (by omega), if_pos (by omega), if_pos h]
  · rw [if_neg h, if_neg (show ¬ o < 2 * 1920 by omega)]
    by_cases h1 : o < 4000
    · rw [if_pos (by omega), if_pos h1]
    · rw [if_neg (by omega), if_neg h1]

theorem Window.nextRow (hw : Window p base frame) (cur : Cursor) :
    p.nextRow base (withPage m frame page) cur =
      some (withPage m frame (Tty.nextRow ⟨page, cur⟩).page, (Tty.nextRow ⟨page, cur⟩).cursor) := by
  unfold Paging.nextRow Tty.nextRow
  by_cases h : cur.screenY + 1 = 25
  · simp only [h, if_true, hw.scrollThePage]
    rw [show (25 : Int) - 1 = cur.screenY by omega]
  · simp only [if_neg h]

theorem Tty.nextRow_onScreen (page : Memory) {cur : Cursor} (h : cur.screenY < 25) (h0 : 0 ≤ cur.screenY + 1) :
    (Tty.nextRow ⟨page, cur⟩).cursor.OnScreen ∧ (Tty.nextRow ⟨page, cur⟩).cursor.screenX = 0 := by
  unfold Tty.nextRow
  by_cases hc : cur.screenY + 1 = 25
  · simp only [if_pos hc]
    exact ⟨⟨by dsimp only; omega, by dsimp only; omega, by dsimp only; omega⟩, trivial⟩
  · simp only [if_neg hc]
    exact ⟨⟨by dsimp only; omega, by dsimp only; omega, by dsimp only; omega⟩, trivial⟩

/-- Through a window, `putc` is `Tty.putc` on the frame behind it. The cell it writes
must not be before the first: only a backspace can get there. -/
theorem Window.putcVia (hw : Window p base frame) {cur : Cursor} (hon : cur.OnScreen) {c : UInt8}
    (hback : c = 0x08 → 0 < 80 * cur.screenY + cur.screenX) :
    p.putcVia base c (withPage m frame page) cur =
      some (withPage m frame (Tty.putc c ⟨page, cur⟩).page, (Tty.putc c ⟨page, cur⟩).cursor) := by
  obtain ⟨hlow, hrow, hcol⟩ := hon
  unfold Paging.putcVia Tty.putc
  by_cases hn : c = 0x0A ∨ c = 0x0D
  · rw [if_pos hn, if_pos hn, hw.nextRow]
  rw [if_neg hn, if_neg hn]
  by_cases hb : c = 0x08
  · have h0 := hback hb
    rw [if_pos hb, if_pos hb]
    simp only
    rw [hw.putCell (n := Tty.index { cur with screenX := cur.screenX - 1 })
      (by simp only [Tty.index]; omega) (by simp only [Tty.index]; omega), Option.map_some]
  rw [if_neg hb, if_neg hb]
  by_cases hx : cur.screenX = 80
  · -- the row is full: wrap, then write in column 0
    obtain ⟨⟨h1, h2, h3⟩, h4⟩ := Tty.nextRow_onScreen page hrow (by omega)
    simp only [hx, if_true, hw.nextRow, Option.bind_some]
    rw [hw.putCell (n := Tty.index (Tty.nextRow ⟨page, cur⟩).cursor)
      (by simp only [Tty.index]; omega) (by simp only [Tty.index]; omega), Option.map_some]
  · simp only [if_neg hx, Option.bind_some]
    rw [hw.putCell (n := Tty.index cur)
      (by simp only [Tty.index]; omega) (by simp only [Tty.index]; omega), Option.map_some]

theorem Tty.putc_onScreen (page : Memory) {cur : Cursor} {c : UInt8} (h : cur.OnScreen) (hc : c ≠ 0x08) :
    (Tty.putc c ⟨page, cur⟩).cursor.OnScreen := by
  obtain ⟨hlow, hrow, hcol⟩ := h
  unfold Tty.putc
  by_cases hn : c = 0x0A ∨ c = 0x0D
  · rw [if_pos hn]
    exact (@Tty.nextRow_onScreen page { cur with previousBufLength := 0 } hrow (by dsimp only; omega)).1
  rw [if_neg hn, if_neg hc]
  by_cases hx : cur.screenX = 80
  · -- the row is full: the character goes into column 0 of the next one
    obtain ⟨⟨h1, h2, h3⟩, h4⟩ := Tty.nextRow_onScreen page hrow (by omega)
    simp only [if_pos hx]
    exact ⟨by dsimp only; omega, h2, by dsimp only; omega⟩
  · simp only [if_neg hx]
    exact ⟨by dsimp only; omega, hrow, by dsimp only; omega⟩

/-! ## The windows of the tables -/

/-- The kernel's accesses to the first 4MB go through the video page table. -/
theorem Paging.translate_low (layout : Layout) (pid : Option Nat) (f v : Nat) (w : Bool)
    (h : v / 2 ^ 22 = 0) :
    (tables layout pid f).translate ⟨false, w⟩ v =
      let pte := (tables layout pid f).videoPageTable (v / 2 ^ 12)
      if pte.presentFlag then some (pte.baseAddress * 2 ^ 12 + v % 2 ^ 12) else none := by
  have hi : v / 2 ^ 12 % 2 ^ 10 = v / 2 ^ 12 := by omega
  rw [translate_table h rfl (tableAt_video layout pid f), hi]
  simp only [Access.permits, Bool.not_false, Bool.true_or, Bool.and_true]

theorem window_of_entry {layout : Layout} {pid : Option Nat} {f i b : Nat} (hi : i < 2 ^ 10)
    (hp : ((Paging.tables layout pid f).videoPageTable i).presentFlag = true)
    (hb : ((Paging.tables layout pid f).videoPageTable i).baseAddress = b) :
    Window (Paging.tables layout pid f) (i * 4096) (b * 4096) where
  fits := by omega
  maps := by
    intro o ho w
    have hv : (i * 4096 + o) / 2 ^ 12 = i := by omega
    rw [Paging.translate_low _ _ _ _ _ (by omega)]
    simp only [hv, hp, hb, if_true]
    congr 1; omega

theorem window_video (layout : Layout) (pid : Option Nat) (f : Nat) :
    Window (Paging.tables layout pid f) 0xB8000 (f * 4096) :=
  window_of_entry (i := 184) (by decide) rfl rfl

theorem window_backdoor (layout : Layout) (pid : Option Nat) (f : Nat) :
    Window (Paging.tables layout pid f) 0xBC000 0xB8000 :=
  window_of_entry (i := 188) (b := 0xB8) (by decide) rfl rfl

theorem window_backup (layout : Layout) (pid : Option Nat) (f : Nat) (t : Fin 3) :
    Window (Paging.tables layout pid f) ((185 + t.val) * 4096) ((185 + t.val) * 4096) := by
  match t with
  | 0 => exact window_of_entry (i := 185) (by decide) rfl rfl
  | 1 => exact window_of_entry (i := 186) (by decide) rfl rfl
  | 2 => exact window_of_entry (i := 187) (by decide) rfl rfl

theorem Window.copyPage {base' frame' : Nat} (hd : Window p base frame) (hs : Window p base' frame') :
    p.copyPage m base base' = some (withPage m frame (pageAt m frame')) := by
  have h1 := hd.maps 0 (by omega) true
  have h2 := hs.maps 0 (by omega) false
  simp only [Nat.add_zero] at h1 h2
  rw [Paging.copyPage, h1, Option.bind_some, h2, Option.map_some]
  congr 1
  funext a
  unfold withPage pageAt
  by_cases h : frame ≤ a ∧ a < frame + 4096
  · rw [if_pos h, if_pos h, if_pos (by omega)]
  · rw [if_neg h, if_neg h]

end Flipit
