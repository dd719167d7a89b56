import Flipit.ClearScreen
import Flipit.Wrap

/- What a text looks like on the screen.

   `putc` and `putc_keyboard` wrap late: a row may be full with the cursor in column 80, and only
   the next character moves on. A newline then ends the full row and nothing more, so the
   screen shows the rows of `Wrap.rows`, from which the rows that have scrolled away are missing
   (`Displays`). `Displays.putc` is one character, `printed_text` a text of any length, printed on
   the scheduled terminal or echoed on the visible one. -/
namespace Flipit
open Machine Bytes

def endsRow (c : UInt8) : Bool := c == 0x0A || c == 0x0D

/-- The reference layout of a text, in 80 columns. -/
def layoutRows (s : List UInt8) : List (List UInt8) := Wrap.rows 80 endsRow s

/-- The console shows the last 25 of these rows, spaces where they have no character, and the
cursor is at the end of the last one. -/
structure Displays (s : Tty) (rows : List (List UInt8)) : Prop where
  chars : ∀ y x, y < 25 → x < 80 → s.page (2 * (80 * y + x)) = Wrap.cell 25 0x20 rows y x
  attrs : ∀ n, n < 2000 → s.page (2 * n + 1) = 0x7
  row : s.cursor.screenY + 1 = (min rows.length 25 : Nat)
  col : s.cursor.screenX = ((rows.getLast?.getD []).length : Nat)

/-! ## One character -/

section
variable {s : Tty} {rows init : List (List UInt8)} {r : List UInt8}

theorem displays_blank (hb : Blank s.page) (hx : s.cursor.screenX = 0) (hy : s.cursor.screenY = 0) :
    Displays s (layoutRows []) := by
  rw [layoutRows, Wrap.rows_nil]
  refine ⟨fun y x hy' hx' => ?_, fun n hn => (hb n hn).2, by simp [hy], by simp [hx]⟩
  rw [(hb (80 * y + x) (by omega)).1, Wrap.cell_eq]
  cases y with
  | zero => simp
  | succ y => simp

theorem Displays.nextRow (h : Displays s rows) : Displays (Tty.nextRow s) (rows ++ [[]]) := by
  have hrow := h.row
  have hlen : (rows ++ [[]]).length = rows.length + 1 := by simp
  have hlast : ((rows ++ [[]]).getLast?.getD []).length = 0 := by simp
  unfold Tty.nextRow
  by_cases hbottom : s.cursor.screenY + 1 = 25
  · rw [if_pos hbottom]
    refine ⟨fun y x hy hx => ?_, fun n hn => ?_, by dsimp only; omega, by dsimp only; omega⟩
    · rw [Wrap.cell_newRow hy, if_neg (by omega)]
      simp only [Tty.scroll]
      by_cases hup : y + 1 < 25
      · rw [if_pos (by omega), if_pos (by omega), if_pos hup, ← h.chars (y + 1) x hup hx]
        congr 1
        omega
      · rw [if_neg (by omega), if_pos (by omega), if_pos (by omega), if_neg hup]
    · simp only [Tty.scroll]
      by_cases hup : 2 * n + 1 < 3840
      · rw [if_pos hup, if_neg (by omega)]
      · rw [if_neg hup, if_pos (by omega), if_neg (by omega)]
  · rw [if_neg hbottom]
    refine ⟨fun y x hy hx => ?_, h.attrs, by dsimp only; omega, by dsimp only; omega⟩
    rw [Wrap.cell_newRow hy, if_pos (by omega)]
    exact h.chars y x hy hx

theorem Displays.setCell (h : Displays s (init ++ [r])) (hr : r.length < 80) (c : UInt8) :
    Displays ⟨Tty.setCell s.page (Tty.index s.cursor) c, { s.cursor with screenX := s.cursor.screenX + 1 }⟩
      (init ++ [r ++ [c]]) := by
  have hrow := h.row
  have hcol := h.col
  rw [List.length_append, List.length_singleton] at hrow
  rw [List.getLast?_concat, Option.getD_some] at hcol
  have hindex : Tty.index s.cursor = 80 * (min (init.length + 1) 25 - 1) + r.length := by
    simp only [Tty.index]
    omega
  refine ⟨fun y x hy hx => ?_, fun n hn => ?_, ?_, ?_⟩
  · rw [Wrap.cell_char c hy, hindex]
    simp only [Tty.setCell]
    by_cases hcell : y + 1 = min (init.length + 1) 25 ∧ x = r.length
    · rw [if_pos hcell, Function.update_of_ne (by omega),
        show 80 * y + x = 80 * (min (init.length + 1) 25 - 1) + r.length by omega, Function.update_self]
    · rw [if_neg hcell, Function.update_of_ne (by omega), Function.update_of_ne (by omega)]
      exact h.chars y x hy hx
  · simp only [Tty.setCell]
    by_cases hn' : n = Tty.index s.cursor
    · rw [hn', Function.update_self]
    · rw [Function.update_of_ne (by omega), Function.update_of_ne (by omega)]
      exact h.attrs n hn
  · simpa using hrow
  · simp [hcol]

theorem Displays.putc {text : List UInt8} (h : Displays s (layoutRows text)) {c : UInt8} (hc : c ≠ 0x08) :
    Displays (Tty.putc c s) (layoutRows (text ++ [c])) := by
  unfold Tty.putc
  by_cases hn : c = 0x0A ∨ c = 0x0D
  · rw [if_pos hn, layoutRows, Wrap.rows_break 80 (by simpa [endsRow] using hn)]
    -- `previous_buf_length` is not shown
    have hforget : Displays { s with cursor := { s.cursor with previousBufLength := 0 } } (layoutRows text) :=
      ⟨h.chars, h.attrs, h.row, h.col⟩
    exact hforget.nextRow
  rw [if_neg hn, if_neg hc]
  have hgrown : Wrap.Grown 80 c (layoutRows text) (layoutRows (text ++ [c])) :=
    Wrap.rows_char (by decide) (by simpa [endsRow] using hn) text
  revert h hgrown
  generalize layoutRows text = old
  generalize layoutRows (text ++ [c]) = new
  intro h hgrown
  have hcol := h.col
  cases hgrown with
  | room hr =>
    rw [List.getLast?_concat, Option.getD_some] at hcol
    rw [if_neg (by omega)]
    exact h.setCell hr c
  | full hr =>
    -- the row is full: the character is the first of the next one
    rw [List.getLast?_concat, Option.getD_some] at hcol
    rw [if_pos (by omega)]
    exact h.nextRow.setCell (by simp) c

theorem Displays.onScreen {text : List UInt8} (h : Displays s (layoutRows text)) : s.cursor.OnScreen := by
  have hrow := h.row
  have hcol := h.col
  obtain ⟨init, r, hrows⟩ : ∃ init r, layoutRows text = init ++ [r] :=
    ⟨_, _, (List.dropLast_append_getLast (Wrap.rows_ne_nil (by decide) text)).symm⟩
  have hwidth : r.length ≤ 80 := Wrap.rows_width (by decide) text r (by
    change r ∈ layoutRows text
    rw [hrows]
    simp)
  rw [hrows, List.getLast?_concat, Option.getD_some] at hcol
  rw [hrows, List.length_append, List.length_singleton] at hrow
  exact ⟨by omega, by omega, by omega⟩

end

/-! ## A text -/

/-- A routine that prints on the console of terminal `t` in the states `I`, while the cursor is on
the screen and a backspace has a cell to clear. -/
structure PrintsOn (t : Fin 3) (emit : Kernel → UInt8 → Option Kernel) (I : Kernel → Prop) : Prop where
  putc : ∀ {k c}, I k → (k.cursor t.val).OnScreen →
    (c = 0x08 → 0 < 80 * (k.cursor t.val).screenY + (k.cursor t.val).screenX) →
    emit k c = some (k.withScreen t (Tty.putc c (logical k t)))
  keep : ∀ {k s}, I k → I (k.withScreen t s)

/-- Terminal `t` is scheduled, and the page at 0xB8000 is its logical screen. -/
structure Kernel.Scheduled (t : Fin 3) (k : Kernel) : Prop where
  number : k.terminalNum = t.val
  window : Window k.paging 0xB8000 (logicalFrame k.currentVisible t)

/-- Terminal `v` is visible, and the back door is open. -/
structure Kernel.Visible (v : Fin 3) (k : Kernel) : Prop where
  number : k.currentVisible = v.val
  door : Window k.paging 0xBC000 0xB8000

variable {k : Kernel} {t v : Fin 3}

theorem printsOn_putc (t : Fin 3) : PrintsOn t Kernel.putc (Kernel.Scheduled t) where
  putc := fun h hon hback => putcVia_screen h.number h.window hon hback
  keep := fun h => ⟨h.number, h.window⟩

theorem printsOn_keyboard (v : Fin 3) : PrintsOn v Kernel.putcKeyboard (Kernel.Visible v) where
  putc := by
    intro k c h hon hback
    apply putcVia_screen h.number _ hon hback
    rw [frame_visible h.number]
    exact h.door
  keep := fun h => ⟨h.number, h.door⟩

section
variable {layout : Layout} {last : Option Nat}

theorem Kernel.Mapped.scheduled (h : k.Mapped layout last) (ht : k.terminalNum = t.val) : k.Scheduled t := by
  have hpaging : k.paging = Paging.tables layout last (Paging.shownFrame k.currentVisible k.terminalNum) :=
    h.ok.paging
  refine ⟨ht, ?_⟩
  rw [← frame_shown, ← ht, hpaging]
  exact window_video ..

theorem Kernel.Mapped.visible (h : k.Mapped layout last) (hv : k.currentVisible = v.val) : k.Visible v := by
  have hpaging : k.paging = Paging.tables layout last (Paging.shownFrame k.currentVisible k.terminalNum) :=
    h.ok.paging
  refine ⟨hv, ?_⟩
  rw [hpaging]
  exact window_backdoor ..

end

theorem PrintsOn.text {emit : Kernel → UInt8 → Option Kernel} {I : Kernel → Prop} (he : PrintsOn t emit I)
    (hI : I k) {shown : List UInt8} (h : Displays (logical k t) (layoutRows shown)) {s : List UInt8}
    (hs : 0x08 ∉ s) :
    ∃ k', s.foldlM emit k = some k' ∧ Displays (logical k' t) (layoutRows (shown ++ s)) := by
  -- on the text: what has been printed is part of what is shown
  induction s generalizing k shown with
  | nil => exact ⟨k, rfl, by rwa [List.append_nil]⟩
  | cons c s ih =>
    obtain ⟨hc, hs⟩ := not_or.mp (mt List.mem_cons.mpr hs)
    have hon : (k.cursor t.val).OnScreen := h.onScreen
    have hput : emit k c = some (k.withScreen t (Tty.putc c (logical k t))) :=
      he.putc hI hon (fun hback => absurd hback.symm hc)
    have hnext : Displays (logical (k.withScreen t (Tty.putc c (logical k t))) t)
        (layoutRows (shown ++ [c])) := by
      have hpaged : Paged (Tty.putc c (logical k t)).page := putc_paged pageAt_paged hon c
      rw [logical_withScreen hpaged, if_pos rfl]
      exact h.putc (Ne.symm hc)
    obtain ⟨k', hr, hk'⟩ := ih (he.keep hI) hnext hs
    rw [List.append_assoc] at hk'
    exact ⟨k', by rw [List.foldlM_cons, hput]; exact hr, hk'⟩

/-- In every state of a run from boot, on a terminal whose logical screen is clear with the cursor
home: a text of any bytes but backspaces, printed by `putc` while the terminal is scheduled or by
`putc_keyboard` while it is visible, does not fault, and the screen shows the last 25 rows of its
layout with the cursor at the end of the last row. -/
theorem printed_text (fs : Fs) (q : Paging) (mem : Memory) (es : List Event) (k : Kernel) (t : Fin 3)
    (hrun : run (Kernel.step fs) (Kernel.boot q mem) es = some k) (hblank : Blank (logical k t).page)
    (hx : (k.cursor t.val).screenX = 0) (hy : (k.cursor t.val).screenY = 0) (s : List UInt8)
    (hs : 0x08 ∉ s) :
    (k.terminalNum = t.val → ∃ k', s.foldlM Kernel.putc k = some k' ∧ Displays (logical k' t) (layoutRows s)) ∧
    (k.currentVisible = t.val → ∃ k', s.foldlM Kernel.putcKeyboard k = some k' ∧
      Displays (logical k' t) (layoutRows s)) := by
  obtain ⟨last, hmapped⟩ := Kernel.mapped_run hrun
  have hstart : Displays (logical k t) (layoutRows []) := displays_blank hblank hx hy
  exact ⟨fun ht => (printsOn_putc t).text (hmapped.scheduled ht) hstart hs,
    fun hv => (printsOn_keyboard t).text (hmapped.visible hv) hstart hs⟩

/-- The first shell clears its screen; two rows, a break after the first. -/
theorem printed_text_shell : ∃ k k',
    run (Kernel.step smallFs) (Kernel.boot linkedPaging fun _ => 0) [.tick 0 0 zeroEnv, .controlL] = some k ∧
      [0x61, 0x0A, 0x62].foldlM Kernel.putc k = some k' ∧ Displays (logical k' 0) [[0x61], [0x62]] := by
  have hrun : (run (Kernel.step smallFs) (Kernel.boot linkedPaging fun _ => 0)
      [.tick 0 0 zeroEnv]).map (fun k => (k.terminalNum, k.currentVisible)) = some (0, 0) := by decide +kernel
  obtain ⟨k0, hr, hq⟩ := Option.map_eq_some_iff.mp hrun
  obtain ⟨ht, hv⟩ := Prod.mk.inj hq
  obtain ⟨last, hmapped⟩ := Kernel.mapped_run hr
  obtain ⟨pid, t, v, hshown⟩ := shown_of_mapped hmapped (by omega)
  obtain rfl : t = 0 := Fin.ext (by have := hshown.scheduled; simp at this ⊢; omega)
  have hclear : Cleared k0 (k0.wiped 0) 0 := (cleared_iff hv).mpr (.inl rfl)
  have hboth : run (Kernel.step smallFs) (Kernel.boot linkedPaging fun _ => 0)
      [.tick 0 0 zeroEnv, .controlL] = some (k0.wiped 0) := by
    rw [← List.singleton_append, run_append, hr, Option.bind_some, run, Kernel.step, hshown.controlL]
    rfl
  obtain ⟨k', hk', htext⟩ := (printed_text smallFs linkedPaging (fun _ => 0) _ (k0.wiped 0) 0 hboth
    hclear.blank hclear.home.1 hclear.home.2 [0x61, 0x0A, 0x62] (by decide)).1 ht
  have hrows : layoutRows [0x61, 0x0A, 0x62] = [[0x61], [0x62]] := by
    simp [layoutRows, Wrap.rows, endsRow, List.splitOnP_cons_eq_if_modifyHead, Wrap.rowsOf_fits]
  exact ⟨k0.wiped 0, k', hboth, hk', hrows ▸ htext⟩

end Flipit
