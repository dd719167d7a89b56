import Flipit.LogicalScreen

/- Ctrl+L and the three consoles.

   `clear` blanks the page at 0xB8000, which is the logical screen of the scheduled
   terminal, and homes the cursor of the visible one; `clear_buffer` empties the visible
   terminal's line. The echo of a key goes through the back door instead, which always
   shows the VGA frame. So Ctrl+L clears the visible console, and nothing else, while the
   visible terminal is the scheduled one; otherwise it wipes a screen that is not shown
   (`controlL_iff`).

   Correspondence:
     `clear`         ↔ `Kernel.clear`, on a page `Tty.wiped`
     Ctrl+L          ↔ `Kernel.controlL` -/
namespace Flipit
open Machine Bytes

/-- The 25 rows of a page hold spaces, with attribute 7. -/
def Blank (page : Memory) : Prop := ∀ n, n < 2000 → page (2 * n) = 0x20 ∧ page (2 * n + 1) = 0x7

/-- The page with its first `n` cells blank. -/
def Tty.wiped (page : Memory) (n : Nat) : Memory := fun o =>
  if o < 2 * n then if o % 2 = 0 then 0x20 else 0x7 else page o

/-- What Ctrl+L is for: the console of terminal `v` is clear and its line empty, and the other
terminals keep screen, cursor and line. -/
structure Cleared (k k' : Kernel) (v : Fin 3) : Prop where
  blank : Blank (logical k' v).page
  home : (k'.cursor v.val).screenX = 0 ∧ (k'.cursor v.val).screenY = 0
  line : (k'.input.line v.val).content = []
  others : ∀ u, u ≠ v → logical k' u = logical k u ∧ k'.input.line u.val = k.input.line u.val

/-! ## Pages -/

section
variable {page m : Memory}

theorem wiped_zero : Tty.wiped page 0 = page := by
  funext o
  exact if_neg (by omega)

theorem wiped_succ (page : Memory) (n : Nat) :
    Tty.setCell (Tty.wiped page n) n 0x20 = Tty.wiped page (n + 1) := by
  funext o
  -- the two bytes of the cell, then the rest of the page
  unfold Tty.setCell Tty.wiped
  simp only [Function.update_apply]
  by_cases h1 : o = 2 * n + 1
  · rw [if_pos h1, if_pos (by omega), if_neg (by omega)]
  by_cases h0 : o = 2 * n
  · rw [if_neg h1, if_pos h0, if_pos (by omega), if_pos (by omega)]
  · rw [if_neg h1, if_neg h0]
    by_cases h : o < 2 * n
    · rw [if_pos h, if_pos (show o < 2 * (n + 1) by omega)]
    · rw [if_neg h, if_neg (by omega)]

theorem wiped_blank (page : Memory) : Blank (Tty.wiped page 2000) := by
  intro n hn
  unfold Tty.wiped
  constructor
  · rw [if_pos (by omega), if_pos (by omega)]
  · rw [if_pos (by omega), if_neg (by omega)]

theorem wiped_paged (hp : Paged page) : Paged (Tty.wiped page 2000) := by
  intro o ho
  unfold Tty.wiped
  rw [if_neg (by omega)]
  exact hp o ho

theorem wiped_eq_iff : Tty.wiped page 2000 = page ↔ Blank page := by
  constructor
  · intro h
    rw [← h]
    exact wiped_blank page
  · intro h
    funext o
    unfold Tty.wiped
    by_cases ho : o < 2 * 2000
    · obtain ⟨hchar, hattr⟩ := h (o / 2) (by omega)
      rw [if_pos ho]
      by_cases hpar : o % 2 = 0
      · rw [if_pos hpar, ← hchar]
        congr 1
        omega
      · rw [if_neg hpar, ← hattr]
        congr 1
        omega
    · rw [if_neg ho]

theorem Window.clearVia {p : Paging} {base frame : Nat} (hw : Window p base frame) :
    p.clearVia base (withPage m frame page) =
      some (withPage m frame (Tty.wiped page 2000), ⟨0, 0, 0⟩) := by
  have hloop := Machine.foldlM_range (f := fun m (i : Nat) => p.putCell base m 0 i 0x20)
    (fun i => withPage m frame (Tty.wiped page i)) (n := 2000) fun i hi => by
      rw [hw.putCell (n := i) (by omega) (by omega), wiped_succ]
  rw [wiped_zero] at hloop
  rw [Paging.clearVia, hloop, Option.map_some]

end

/-! ## The key -/

variable {k k' : Kernel} {layout : Layout} {pid : Nat} {t v : Fin 3}

/-- The state after Ctrl+L: the scheduled terminal's screen, the visible one's cursor and line. -/
def Kernel.wiped (k : Kernel) (t : Fin 3) : Kernel :=
  { k with
    mem := withPage k.mem (logicalFrame k.currentVisible t) (Tty.wiped (logical k t).page 2000)
    cursor := Function.update k.cursor k.currentVisible ⟨0, 0, 0⟩
    input := k.input.onLine k.currentVisible Line.clearBuffer }

theorem Shown.controlL (h : Shown k layout pid t v) : k.controlL = some (k.wiped t) := by
  have hw : Window k.paging 0xB8000 (logicalFrame k.currentVisible t) := by
    rw [← frame_shown, ← h.scheduled, h.paging]
    exact window_video ..
  have hclear : k.paging.clearVia 0xB8000 (withPage k.mem _ (logical k t).page) = _ := hw.clearVia
  rw [logical, withPage_pageAt] at hclear
  rw [Kernel.controlL, Kernel.clear, hclear]
  rfl

theorem logical_wiped (u : Fin 3) :
    (logical (k.wiped t) u).page = if u = t then Tty.wiped (logical k u).page 2000 else (logical k u).page := by
  change pageAt (withPage k.mem (logicalFrame k.currentVisible t) _) (logicalFrame k.currentVisible u) = _
  by_cases h : u = t
  · subst h
    rw [if_pos rfl]
    exact pageAt_withPage (wiped_paged pageAt_paged)
  · rw [if_neg h]
    exact pageAt_withPage_ne (frame_apart (Ne.symm h))

theorem wiped_other (hv : k.currentVisible = v.val) {u : Fin 3} (h : u ≠ v) :
    (k.wiped t).cursor u.val = k.cursor u.val ∧ (k.wiped t).input.line u.val = k.input.line u.val := by
  have hne : (u.val : Int) ≠ k.currentVisible := by
    rw [hv]
    exact fun he => h (Fin.ext (by omega))
  exact ⟨Function.update_of_ne hne .., Input.onLine_line_ne hne _⟩

/-- Which screens were blank decides what the key has done where another terminal is
scheduled. -/
theorem cleared_iff (hv : k.currentVisible = v.val) :
    Cleared k (k.wiped t) v ↔ t = v ∨ (Blank (logical k v).page ∧ Blank (logical k t).page) := by
  constructor
  · intro h
    by_cases htv : t = v
    · exact .inl htv
    · refine .inr ⟨?_, ?_⟩
      · have hblank := h.blank
        rwa [logical_wiped, if_neg (Ne.symm htv)] at hblank
      · have hkept : (logical (k.wiped t) t).page = (logical k t).page :=
          congrArg Tty.page (h.others t htv).1
        rw [logical_wiped, if_pos rfl] at hkept
        exact wiped_eq_iff.mp hkept
  · intro h
    have hcur : (k.wiped t).cursor v.val = ⟨0, 0, 0⟩ := by
      rw [← hv]
      exact Function.update_self ..
    refine ⟨?_, by rw [hcur]; exact ⟨rfl, rfl⟩, ?_, fun u hu => ?_⟩
    · rw [logical_wiped]
      by_cases htv : v = t
      · rw [if_pos htv]
        exact wiped_blank _
      · rw [if_neg htv]
        exact (h.resolve_left (Ne.symm htv)).1
    · rw [← hv]
      simp [Kernel.wiped, Line.content, Line.clearBuffer]
    · obtain ⟨hcursor, hline⟩ := wiped_other (t := t) hv hu
      have hpage : (logical (k.wiped t) u).page = (logical k u).page := by
        rw [logical_wiped]
        by_cases hut : u = t
        · -- the wiped screen is not the visible one: it was blank
          subst hut
          rw [if_pos rfl]
          exact wiped_eq_iff.mpr (h.resolve_left hu).2
        · rw [if_neg hut]
      exact ⟨congrArg₂ Tty.mk hpage hcursor, hline⟩

/-- In every state of a run from boot with terminal `t` scheduled and terminal `v` visible, Ctrl+L
does not fault, and it clears the console of the visible terminal and leaves the two others
alone exactly if the visible terminal is the scheduled one, or both their screens were blank
before. -/
theorem controlL_iff (fs : Fs) (q : Paging) (mem : Memory) (es : List Event) (k : Kernel) (t v : Fin 3)
    (hrun : run (Kernel.step fs) (Kernel.boot q mem) es = some k)
    (ht : k.terminalNum = t.val) (hv : k.currentVisible = v.val) :
    ∃ k', k.step fs .controlL = some k'.done ∧
      (Cleared k k' v ↔ t = v ∨ (Blank (logical k v).page ∧ Blank (logical k t).page)) := by
  obtain ⟨last, hmapped⟩ := Kernel.mapped_run hrun
  obtain ⟨pid, t', v', hshown⟩ := shown_of_mapped hmapped (by omega)
  obtain rfl : t' = t := Fin.ext (by have := hshown.scheduled; omega)
  refine ⟨k.wiped t', ?_, cleared_iff hv⟩
  rw [Kernel.step, hshown.controlL]
  rfl

/-- The first shell, shown while it is scheduled. -/
theorem controlL_iff_shell : ∃ k k',
    run (Kernel.step smallFs) (Kernel.boot linkedPaging fun _ => 0) [.tick 0 0 zeroEnv, .key 0x61] = some k ∧
      k.step smallFs .controlL = some k'.done ∧ Cleared k k' 0 := by
  have hrun : (run (Kernel.step smallFs) (Kernel.boot linkedPaging fun _ => 0)
      [.tick 0 0 zeroEnv, .key 0x61]).map (fun k => (k.terminalNum, k.currentVisible)) = some (0, 0) := by
    decide +kernel
  obtain ⟨k, hr, hq⟩ := Option.map_eq_some_iff.mp hrun
  obtain ⟨ht, hv⟩ := Prod.mk.inj hq
  obtain ⟨k', hs, hiff⟩ := controlL_iff smallFs linkedPaging (fun _ => 0) _ k 0 0 hr ht hv
  exact ⟨k, k', hr, hs, hiff.mpr (.inl rfl)⟩

/-- A key for terminal 0, a switch, a key for terminal 1: Ctrl+L, pressed while terminal 0 is
scheduled, leaves the second character on the screen and takes the first one away. -/
theorem controlL_other : ∃ k k',
    run (Kernel.step smallFs) (Kernel.boot linkedPaging fun _ => 0)
      [.tick 0 0 zeroEnv, .key 0x61, .altF 1, .key 0x62] = some k ∧
    k.terminalNum = 0 ∧ k.currentVisible = 1 ∧ k.step smallFs .controlL = some k'.done ∧
    (logical k' 1).page 0 = 0x62 ∧ (logical k 0).page 0 = 0x61 ∧ (logical k' 0).page 0 = 0x20 ∧
    ¬ Cleared k k' 1 := by
  have hrun : ((run (Kernel.step smallFs) (Kernel.boot linkedPaging fun _ => 0)
      [.tick 0 0 zeroEnv, .key 0x61, .altF 1, .key 0x62]).bind fun k => k.controlL.map fun k' =>
        (k.terminalNum, k.currentVisible, (logical k' 1).page 0, (logical k 0).page 0,
          (logical k' 0).page 0)) = some (0, 1, 0x62, 0x61, 0x20) := by decide +kernel
  obtain ⟨k, hr, hrun⟩ := Option.bind_eq_some_iff.mp hrun
  obtain ⟨k', hs, hq⟩ := Option.map_eq_some_iff.mp hrun
  simp only [Prod.mk.injEq] at hq
  obtain ⟨ht, hv, hshown, hold, hnew⟩ := hq
  refine ⟨k, k', hr, ht, hv, ?_, hshown, hold, hnew, ?_⟩
  · rw [Kernel.step, hs]
    rfl
  · intro hcleared
    have hspace := (hcleared.blank 0 (by decide)).1
    rw [Nat.mul_zero, hshown] at hspace
    cases hspace

end Flipit
