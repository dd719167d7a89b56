import Flipit.Scheduler

/- Three consoles on one screen.

   The logical screen of a terminal is the VGA frame while it is the visible one and
   its backup frame otherwise. A process prints through the page at 0xB8000 and stores
   through the vidmap page; both are mapped to the logical screen of the scheduled
   terminal. The keyboard echoes through the back door, to the logical screen of the
   visible one. `screen_step` says that each action does to the logical screens what
   its owner's console of its own does (`Tty`), and that ticks and visible switches,
   with all their copying and remapping, do nothing to them; `logical_screens` is the
   same over runs. -/
namespace Flipit
open Machine Bytes

/-- What reaches a screen, and the two operations that move screens around. -/
inductive ScreenAct where
  | tick (esp ebp : Nat) (env : ExecEnv)
  | switch (dest : Fin 3)
  | putc (c : UInt8)
  | store (offset : Fin 4096) (b : UInt8)
  | echo (c : UInt8)

/-- One of them: a tick, `term_visible_switch`, `putc`, a store of the running process
through the vidmap page, `putc_keyboard`. -/
def Kernel.screenAct (fs : Fs) (k : Kernel) : ScreenAct → Option (Unit × Kernel)
  | .tick esp ebp env => (k.scheduler fs env esp ebp).map fun r => ((), r.2)
  | .switch dest => (k.termVisibleSwitch dest).map fun k => ((), k)
  | .putc c => (k.putc c).map fun k => ((), k)
  | .store offset b => (k.userStore (0xFFC00000 + offset.val) b).map fun k => ((), k)
  | .echo c => (k.putcKeyboard c).map fun k => ((), k)

/-- The physical address of terminal `t`'s logical screen. -/
def logicalFrame (currentVisible : Int) (t : Fin 3) : Nat := (screenFrame currentVisible t.val).toNat

/-- The logical screen and the cursor of terminal `t`. -/
def logical (k : Kernel) (t : Fin 3) : Tty :=
  ⟨pageAt k.mem (logicalFrame k.currentVisible t), k.cursor t.val⟩

/-- A store into the page. -/
def Tty.store (offset : Nat) (b : UInt8) (s : Tty) : Tty :=
  { s with page := Function.update s.page offset b }

/-- What an action does to the console of terminal `t`: prints and stores are the scheduled
terminal's, echoes the visible one's. -/
def owned (t : Fin 3) (terminalNum currentVisible : Int) : ScreenAct → List (Tty → Tty)
  | .putc c => if terminalNum = t.val then [Tty.putc c] else []
  | .store offset b => if terminalNum = t.val then [Tty.store offset.val b] else []
  | .echo c => if currentVisible = t.val then [Tty.putc c] else []
  | .tick _ _ _ | .switch _ => []

/-- The scheduled terminal after an action. -/
def ScreenAct.scheduled (terminalNum : Int) : ScreenAct → Int
  | .tick _ _ _ => (terminalNum + 1) % 3
  | _ => terminalNum

/-- The visible terminal after an action. -/
def ScreenAct.shown (currentVisible : Int) : ScreenAct → Int
  | .switch dest => dest.val
  | _ => currentVisible

/-- All of them, over a run. -/
def ownedOps (t : Fin 3) : Int → Int → List ScreenAct → List (Tty → Tty)
  | _, _, [] => []
  | tn, cv, a :: as => owned t tn cv a ++ ownedOps t (a.scheduled tn) (a.shown cv) as

def applyAll (ops : List (Tty → Tty)) (s : Tty) : Tty := ops.foldl (fun s f => f s) s

def CursorsOn (k : Kernel) : Prop := ∀ t : Fin 3, (k.cursor t.val).OnScreen

/-! ## Frames -/

variable {k k' : Kernel} {cv : Int} {m page : Memory}

theorem frame_apart {t u : Fin 3} (h : t ≠ u) :
    logicalFrame cv t + 4096 ≤ logicalFrame cv u ∨ logicalFrame cv u + 4096 ≤ logicalFrame cv t := by
  have hne : t.val ≠ u.val := fun he => h (Fin.ext he)
  unfold logicalFrame screenFrame
  split_ifs <;> omega

theorem frame_low (cv : Int) (t : Fin 3) : logicalFrame cv t + 4096 ≤ 0x800000 := by
  unfold logicalFrame screenFrame
  split_ifs <;> omega

theorem frame_visible {t : Fin 3} (h : cv = t.val) : logicalFrame cv t = 0xB8000 := by
  unfold logicalFrame screenFrame
  rw [if_pos h.symm]
  rfl

theorem frame_backup {t : Fin 3} (h : cv ≠ t.val) : logicalFrame cv t = (185 + t.val) * 4096 := by
  unfold logicalFrame screenFrame
  rw [if_neg (Ne.symm h)]
  omega

theorem frame_shown {t : Fin 3} : Paging.shownFrame cv t.val * 4096 = logicalFrame cv t := by
  have hrange : -1 ≤ (t.val : Int) ∧ (t.val : Int) ≤ 2 := by omega
  have h := shownFrame_eq cv hrange
  unfold logicalFrame
  omega

theorem pageAt_withPage_ne {frame frame' : Nat}
    (h : frame + 4096 ≤ frame' ∨ frame' + 4096 ≤ frame) :
    pageAt (withPage m frame page) frame' = pageAt m frame' := by
  funext o
  unfold pageAt
  by_cases ho : o < 4096
  · rw [if_pos ho, if_pos ho, withPage_out (by omega)]
  · rw [if_neg ho, if_neg ho]

theorem logical_congr {t : Fin 3} (hv : k'.currentVisible = k.currentVisible)
    (hp : pageAt k'.mem (logicalFrame k.currentVisible t) = pageAt k.mem (logicalFrame k.currentVisible t))
    (hc : k'.cursor t.val = k.cursor t.val) : logical k' t = logical k t := by
  unfold logical
  rw [hv, hp, hc]

/-- The state with another logical screen and cursor for terminal `t`. -/
def Kernel.withScreen (k : Kernel) (t : Fin 3) (s : Tty) : Kernel :=
  { k with
    mem := withPage k.mem (logicalFrame k.currentVisible t) s.page
    cursor := Function.update k.cursor (t.val : Int) s.cursor }

theorem logical_withScreen {t : Fin 3} {s : Tty} (hp : Paged s.page) (u : Fin 3) :
    logical (k.withScreen t s) u = if t = u then s else logical k u := by
  unfold logical Kernel.withScreen
  dsimp only
  by_cases h : t = u
  · subst h
    rw [if_pos rfl, pageAt_withPage hp, Function.update_self]
  · have hne : (u.val : Int) ≠ t.val := fun he => h (Fin.ext (by omega))
    rw [if_neg h, pageAt_withPage_ne (frame_apart h), Function.update_of_ne hne]

/-- An operation on the console of terminal `t`: the other terminals keep theirs. -/
theorem logical_operation {t : Fin 3} (f : Tty → Tty) (hp : Paged (f (logical k t)).page) (u : Fin 3) :
    logical (k.withScreen t (f (logical k t))) u =
      applyAll (if (t.val : Int) = u.val then [f] else []) (logical k u) := by
  rw [logical_withScreen hp]
  by_cases h : t = u
  · subst h
    rw [if_pos rfl, if_pos rfl]
    rfl
  · have hne : (t.val : Int) ≠ u.val := fun he => h (Fin.ext (by omega))
    rw [if_neg h, if_neg hne]
    rfl

theorem setCell_paged (hp : Paged page) {n : Nat} (h : n < 2048) (c : UInt8) :
    Paged (Tty.setCell page n c) := by
  intro o ho
  unfold Tty.setCell
  rw [Function.update_of_ne (by omega), Function.update_of_ne (by omega)]
  exact hp o ho

theorem nextRow_paged (hp : Paged page) (cur : Cursor) : Paged (Tty.nextRow ⟨page, cur⟩).page := by
  unfold Tty.nextRow
  split
  · intro o ho
    simp only [Tty.scroll]
    rw [if_neg (by omega), if_neg (by omega)]
    exact hp o ho
  · exact hp

theorem putc_paged (hp : Paged page) {cur : Cursor} (hon : cur.OnScreen) (c : UInt8) :
    Paged (Tty.putc c ⟨page, cur⟩).page := by
  obtain ⟨hlow, hrow, hcol⟩ := hon
  unfold Tty.putc
  by_cases hn : c = 0x0A ∨ c = 0x0D
  · rw [if_pos hn]
    exact nextRow_paged hp _
  rw [if_neg hn]
  by_cases hb : c = 0x08
  · rw [if_pos hb]
    exact setCell_paged hp (by simp only [Tty.index]; omega) _
  rw [if_neg hb]
  by_cases hx : cur.screenX = 80
  · obtain ⟨⟨h1, h2, h3⟩, h4⟩ := Tty.nextRow_onScreen page hrow (by omega)
    simp only [hx, if_true]
    exact setCell_paged (nextRow_paged hp _) (by simp only [Tty.index]; omega) _
  · simp only [hx, if_false]
    exact setCell_paged hp (by simp only [Tty.index]; omega) _

/-! ## The actions -/

/-- The tables are those of the family with some process mapped, and a terminal is
scheduled. -/
structure Shown (k : Kernel) (layout : Layout) (pid : Nat) (t v : Fin 3) : Prop where
  scheduled : k.terminalNum = t.val
  visible : k.currentVisible = v.val
  paging : k.paging = Paging.tables layout (some pid) (Paging.shownFrame k.currentVisible k.terminalNum)

theorem shown_of_mapped {layout : Layout} {last : Option Nat} (h : k.Mapped layout last)
    (h0 : 0 ≤ k.terminalNum) : ∃ pid t v, Shown k layout pid t v := by
  obtain ⟨⟨-, htop⟩, ⟨hvlow, hvtop⟩, hpaging⟩ := h.ok
  obtain ⟨pid, rfl⟩ := Option.isSome_iff_exists.mp (h.some h0)
  have hn : k.mmu.terminalNum = k.terminalNum := rfl
  have hv : k.mmu.currentVisible = k.currentVisible := rfl
  refine ⟨pid, ⟨k.terminalNum.toNat, by omega⟩, ⟨k.currentVisible.toNat, by omega⟩, ?_, ?_, hpaging⟩
  · dsimp only; omega
  · dsimp only; omega

section
variable {layout : Layout} {pid : Nat} {t v : Fin 3}

/-- Printing through a window on a terminal's logical screen, with its cursor. -/
theorem putcVia_screen {base : Nat} {i : Int} (hi : i = t.val)
    (hw : Window k.paging base (logicalFrame k.currentVisible t)) (hon : (k.cursor t.val).OnScreen)
    {c : UInt8} (hback : c = 0x08 → 0 < 80 * (k.cursor t.val).screenY + (k.cursor t.val).screenX) :
    ((k.paging.putcVia base c k.mem (k.cursor i)).map fun (m, cur) =>
      { k with mem := m, cursor := Function.update k.cursor i cur }) =
      some (k.withScreen t (Tty.putc c (logical k t))) := by
  subst hi
  have hput : k.paging.putcVia base c (withPage k.mem _ (logical k t).page) (k.cursor t.val) = _ :=
    hw.putcVia hon hback
  rw [logical, withPage_pageAt] at hput
  rw [hput]
  rfl

theorem Shown.putc (h : Shown k layout pid t v) (hon : (k.cursor t.val).OnScreen) {c : UInt8}
    (hback : c = 0x08 → 0 < 80 * (k.cursor t.val).screenY + (k.cursor t.val).screenX) :
    k.putc c = some (k.withScreen t (Tty.putc c (logical k t))) := by
  have hw : Window k.paging 0xB8000 (logicalFrame k.currentVisible t) := by
    rw [← frame_shown, ← h.scheduled, h.paging]
    exact window_video ..
  exact putcVia_screen h.scheduled hw hon hback

theorem Shown.echo (h : Shown k layout pid t v) (hon : (k.cursor v.val).OnScreen) {c : UInt8}
    (hback : c = 0x08 → 0 < 80 * (k.cursor v.val).screenY + (k.cursor v.val).screenX) :
    k.putcKeyboard c = some (k.withScreen v (Tty.putc c (logical k v))) := by
  have hw : Window k.paging 0xBC000 (logicalFrame k.currentVisible v) := by
    rw [frame_visible h.visible, h.paging]
    exact window_backdoor ..
  exact putcVia_screen h.visible hw hon hback

/-- A process stores through the vidmap page on the logical screen of its terminal. -/
theorem Shown.store (h : Shown k layout pid t v) (offset : Fin 4096) (b : UInt8) :
    k.userStore (0xFFC00000 + offset.val) b =
      some (k.withScreen t (Tty.store offset.val b (logical k t))) := by
  have ho := offset.isLt
  have htr : k.paging.translate ⟨true, true⟩ (0xFFC00000 + offset.val) =
      some (logicalFrame k.currentVisible t + offset.val) := by
    rw [h.paging, Paging.translate_user, if_neg (by omega), if_pos (by omega), ← frame_shown, h.scheduled]
    congr 1
    omega
  have hmem : Function.update k.mem (logicalFrame k.currentVisible t + offset.val) b =
      withPage k.mem (logicalFrame k.currentVisible t) (Tty.store offset.val b (logical k t)).page := by
    rw [Tty.store, logical, ← withPage_update ho, withPage_pageAt]
  have hcur : Function.update k.cursor (t.val : Int) (Tty.store offset.val b (logical k t)).cursor =
      k.cursor := Function.update_eq_self ..
  rw [Kernel.userStore, htr, Option.map_some, hmem, Kernel.withScreen, hcur]

theorem Shown.switch (h : Shown k layout pid t v) (dest : Fin 3) :
    ∃ m, k.termVisibleSwitch dest = some { k with mem := m, currentVisible := dest.val }.termPageSwitch ∧
      ∀ u : Fin 3, pageAt m (logicalFrame dest.val u) = pageAt k.mem (logicalFrame k.currentVisible u) := by
  have hv := h.visible
  have hsave : Window k.paging ((185 + v.val) * 4096) ((185 + v.val) * 4096) := by
    rw [h.paging]; exact window_backup ..
  have hload : Window k.paging ((185 + dest.val) * 4096) ((185 + dest.val) * 4096) := by
    rw [h.paging]; exact window_backup ..
  have hdoor : Window k.paging 0xBC000 0xB8000 := by
    rw [h.paging]; exact window_backdoor ..
  have hnat : k.currentVisible.toNat = v.val := by omega
  let saved := withPage k.mem ((185 + v.val) * 4096) (pageAt k.mem 0xB8000)
  -- both copies as pages: the VGA page to its backup, then the other backup to it
  refine ⟨withPage saved 0xB8000 (pageAt saved ((185 + dest.val) * 4096)), ?_, fun u => ?_⟩
  · rw [Kernel.termVisibleSwitch, if_pos (by omega), hnat, hsave.copyPage hdoor, Option.bind_some,
      hdoor.copyPage hload, Option.map_some]
  · -- after the first copy every screen is in its backup frame
    have hfirst : ∀ w : Fin 3,
        pageAt saved ((185 + w.val) * 4096) = pageAt k.mem (logicalFrame k.currentVisible w) := by
      intro w
      by_cases hw : w = v
      · subst hw
        rw [pageAt_withPage pageAt_paged, frame_visible hv]
      · have hne : w.val ≠ v.val := fun he => hw (Fin.ext he)
        rw [pageAt_withPage_ne (by omega), frame_backup (by omega)]
    by_cases hu : u = dest
    · subst hu
      rw [frame_visible rfl, pageAt_withPage pageAt_paged, hfirst]
    · have hne : u.val ≠ dest.val := fun he => hu (Fin.ext he)
      rw [frame_backup (by omega), pageAt_withPage_ne (by omega), hfirst]

theorem pageAt_overlay {frame a : Nat} {bytes : List UInt8} (h : frame + 4096 ≤ a) :
    pageAt (overlay m a bytes) frame = pageAt m frame := by
  funext o
  unfold pageAt overlay
  by_cases ho : o < 4096
  · rw [if_pos ho, if_pos ho, if_neg (by omega)]
  · rw [if_neg ho, if_neg ho]

theorem Shown.tick {fs : Fs} (h : Shown k layout pid t v) {esp ebp : Nat} {env : ExecEnv} {o : Outcome}
    (hs : k.scheduler fs env esp ebp = some (o, k')) :
    k'.terminalNum = (k.terminalNum + 1) % 3 ∧ k'.currentVisible = k.currentVisible ∧
    ∀ u, logical k' u = logical k u := by
  have hfresh : ∀ u, k.fresh u = false := by
    intro u
    have hn := h.scheduled
    simp only [Kernel.fresh, Bool.and_eq_false_imp, beq_iff_eq]
    omega
  have hcursor : ∀ u, (k.ticked esp ebp).cursor u = k.cursor u := by
    intro u
    simp [Kernel.ticked, Kernel.tickInit, hfresh]
  rcases Kernel.scheduler_cases hs with ⟨-, i, entry, n, a, bytes, -, -, ha, rfl⟩ | ⟨a, -, -, rfl⟩
  · refine ⟨rfl, rfl, fun u => ?_⟩
    have hpaging : (k.readied esp ebp).paging = Paging.tables layout (some pid)
        (Paging.shownFrame k.currentVisible ((k.terminalNum + 1) % 3)) := by
      change k.paging.termPageSwitch _ _ = _
      rw [h.paging, Paging.termPageSwitch_tables]
      rfl
    have hv : 0x08048000 / 2 ^ 22 = 32 := by decide
    rw [hpaging, Paging.userPageInit_tables i.isLt, Paging.translate_process _ _ _ _ hv] at ha
    have hlow := frame_low k.currentVisible u
    have hhigh := Option.some.inj ha
    exact logical_congr rfl (pageAt_overlay (by omega)) (hcursor u.val)
  · exact ⟨rfl, rfl, fun u => logical_congr rfl rfl (hcursor u.val)⟩

end

/-- The cell a backspace clears is on the screen if the cursor is afterwards. -/
theorem back_low {p : Paging} {base : Nat} {m' : Memory} {c : UInt8} {cur cur' : Cursor}
    (h : p.putcVia base c m cur = some (m', cur')) (hon : cur'.OnScreen) :
    c = 0x08 → 0 < 80 * cur.screenY + cur.screenX := by
  intro hc
  subst hc
  rw [Paging.putcVia, if_neg (by decide), if_pos rfl] at h
  obtain ⟨m1, -, h1⟩ := Option.map_eq_some_iff.mp h
  obtain ⟨-, rfl⟩ := Prod.mk.inj h1
  have := hon.low
  dsimp only at this
  omega

theorem screen_step {fs : Fs} {layout : Layout} {pid : Nat} {t v : Fin 3} {a : ScreenAct}
    (h : Shown k layout pid t v) (hon : CursorsOn k) (hon' : CursorsOn k')
    (hs : k.screenAct fs a = some ((), k')) :
    k'.terminalNum = a.scheduled k.terminalNum ∧ k'.currentVisible = a.shown k.currentVisible ∧
    ∀ u, logical k' u = applyAll (owned u k.terminalNum k.currentVisible a) (logical k u) := by
  cases a with
  | tick esp ebp env =>
    obtain ⟨⟨o, k1⟩, h1, h2⟩ := Option.map_eq_some_iff.mp hs
    obtain ⟨-, rfl⟩ := Prod.mk.inj h2
    exact h.tick h1
  | switch dest =>
    obtain ⟨-, h1⟩ := map_answer.mp hs
    obtain ⟨m, hm, hpages⟩ := h.switch dest
    obtain rfl := Option.some.inj (h1.symm.trans hm)
    refine ⟨rfl, rfl, fun u => ?_⟩
    change Tty.mk (pageAt m (logicalFrame dest.val u)) (k.cursor u.val) = _
    rw [hpages]
    rfl
  | putc c =>
    obtain ⟨-, h1⟩ := map_answer.mp hs
    obtain ⟨⟨m', cur'⟩, hvia, rfl⟩ := Option.map_eq_some_iff.mp h1
    -- the cursor stays on the screen, so a backspace had a cell to clear
    have hcur' : cur'.OnScreen := by
      have hk := hon' t
      dsimp only at hk
      rwa [h.scheduled, Function.update_self] at hk
    rw [h.scheduled] at hvia
    have hput := h.putc (hon t) (back_low hvia hcur')
    rw [Option.some.inj (h1.symm.trans hput)]
    refine ⟨rfl, rfl, fun u => ?_⟩
    rw [logical_operation (Tty.putc c) (putc_paged pageAt_paged (hon t) c), h.scheduled]
    rfl
  | store offset b =>
    obtain ⟨-, h1⟩ := map_answer.mp hs
    obtain rfl := Option.some.inj (h1.symm.trans (h.store offset b))
    have ho := offset.isLt
    have hpaged : Paged (Tty.store offset.val b (logical k t)).page := by
      intro o hle
      have hne : o ≠ offset.val := by omega
      exact (Function.update_of_ne hne ..).trans (pageAt_paged o hle)
    refine ⟨rfl, rfl, fun u => ?_⟩
    rw [logical_operation (Tty.store offset.val b) hpaged, h.scheduled]
    rfl
  | echo c =>
    obtain ⟨-, h1⟩ := map_answer.mp hs
    obtain ⟨⟨m', cur'⟩, hvia, rfl⟩ := Option.map_eq_some_iff.mp h1
    have hcur' : cur'.OnScreen := by
      have hk := hon' v
      dsimp only at hk
      rwa [h.visible, Function.update_self] at hk
    rw [h.visible] at hvia
    have hput := h.echo (hon v) (back_low hvia hcur')
    rw [Option.some.inj (h1.symm.trans hput)]
    refine ⟨rfl, rfl, fun u => ?_⟩
    rw [logical_operation (Tty.putc c) (putc_paged pageAt_paged (hon v) c), h.visible]
    rfl

/-- Of the actions only a tick can fail, if the cursors stay on the screen. -/
theorem screen_total {fs : Fs} {layout : Layout} {pid : Nat} {t v : Fin 3} {a : ScreenAct}
    (h : Shown k layout pid t v) (hon : CursorsOn k)
    (hafter : ∀ u, (applyAll (owned u k.terminalNum k.currentVisible a) (logical k u)).cursor.OnScreen)
    (hnot : ∀ esp ebp env, a ≠ .tick esp ebp env) : (k.screenAct fs a).isSome := by
  -- a backspace that ends on the screen clears a cell of it
  have hback : ∀ {c : UInt8} {u : Fin 3}, (Tty.putc c (logical k u)).cursor.OnScreen → c = 0x08 →
      0 < 80 * (k.cursor u.val).screenY + (k.cursor u.val).screenX := by
    intro c u hput hc
    subst hc
    have hlow := hput.low
    rw [Tty.putc, if_neg (by decide), if_pos rfl] at hlow
    dsimp only [logical] at hlow
    omega
  cases a with
  | tick esp ebp env => exact absurd rfl (hnot esp ebp env)
  | switch dest =>
    obtain ⟨m, hm, -⟩ := h.switch dest
    rw [Kernel.screenAct, hm]
    rfl
  | putc c =>
    have ht := hafter t
    rw [owned, if_pos h.scheduled] at ht
    rw [Kernel.screenAct, h.putc (hon t) (hback ht)]
    rfl
  | store offset b =>
    rw [Kernel.screenAct, h.store offset b]
    rfl
  | echo c =>
    have hv := hafter v
    rw [owned, if_pos h.visible] at hv
    rw [Kernel.screenAct, h.echo (hon v) (hback hv)]
    rfl

/-! ## Runs -/

theorem screen_mapped {fs : Fs} {layout : Layout} {last : Option Nat} {a : ScreenAct}
    (h : k.Mapped layout last) (h0 : 0 ≤ k.terminalNum) (hs : k.screenAct fs a = some ((), k')) :
    0 ≤ k'.terminalNum ∧ ∃ last', k'.Mapped layout last' := by
  have hsame : k'.mmu = k.mmu → 0 ≤ k'.terminalNum ∧ ∃ last', k'.Mapped layout last' := by
    intro hm
    have hn : k'.terminalNum = k.terminalNum := congrArg Mmu.terminalNum hm
    refine ⟨by omega, last, by rw [hm]; exact h.ok, ?_⟩
    rw [hn]
    exact h.some
  cases a with
  | tick esp ebp env =>
    obtain ⟨⟨o, k1⟩, h1, h2⟩ := Option.map_eq_some_iff.mp hs
    obtain ⟨-, rfl⟩ := Prod.mk.inj h2
    refine ⟨?_, Kernel.mapped_step (e := .tick esp ebp env) h h1⟩
    rcases Kernel.scheduler_cases h1 with ⟨-, i, entry, n, a, bytes, -, -, -, rfl⟩ | ⟨a, -, -, hk⟩
    · change 0 ≤ (k.terminalNum + 1) % 3
      omega
    · rw [hk]
      change 0 ≤ (k.terminalNum + 1) % 3
      omega
  | switch dest =>
    obtain ⟨-, h1⟩ := map_answer.mp hs
    have hstep : k.step fs (.altF dest) = some k'.done := by rw [Kernel.step, h1]; rfl
    refine ⟨?_, Kernel.mapped_step h hstep⟩
    obtain ⟨m, rfl⟩ := Kernel.termVisibleSwitch_frame h1
    exact h0
  | putc c =>
    obtain ⟨-, h1⟩ := map_answer.mp hs
    obtain ⟨m, cur, rfl⟩ := Kernel.putc_frame h1
    exact hsame rfl
  | store offset b =>
    obtain ⟨-, h1⟩ := map_answer.mp hs
    obtain ⟨x, -, rfl⟩ := Option.map_eq_some_iff.mp h1
    exact hsame rfl
  | echo c =>
    obtain ⟨-, h1⟩ := map_answer.mp hs
    obtain ⟨m, cur, rfl⟩ := Kernel.putcKeyboard_frame h1
    exact hsame rfl

theorem screen_run {fs : Fs} {layout : Layout} {last : Option Nat} {acts : List ScreenAct}
    (h : k.Mapped layout last) (h0 : 0 ≤ k.terminalNum)
    (hr : run (Kernel.screenAct fs) k acts = some k')
    (hon : Always (Kernel.screenAct fs) CursorsOn k acts) :
    (∀ t, logical k' t = applyAll (ownedOps t k.terminalNum k.currentVisible acts) (logical k t)) ∧
    CursorsOn k' ∧ 0 ≤ k'.terminalNum ∧ ∃ last', k'.Mapped layout last' := by
  induction acts generalizing k last with
  | nil =>
    obtain rfl : k = k' := Option.some.inj hr
    exact ⟨fun _ => rfl, hon, h0, last, h⟩
  | cons a acts ih =>
    obtain ⟨⟨_, k1⟩, hs, hr⟩ := run_cons.mp hr
    obtain ⟨pid, t, v, hshown⟩ := shown_of_mapped h h0
    have hon1 := hon.2 _ hs
    obtain ⟨hn, hv, hlogical⟩ := screen_step hshown hon.1 hon1.first hs
    obtain ⟨h0', last', h'⟩ := screen_mapped h h0 hs
    obtain ⟨hrest, hend⟩ := ih h' h0' hr hon1
    refine ⟨fun u => ?_, hend⟩
    rw [hrest, hlogical, hn, hv, ownedOps, applyAll, applyAll, applyAll, List.foldl_append]

/-- Any run brings the kernel past its first tick, then any run of ticks, visible switches,
prints, vidmap stores and echoes follows, with the cursors on the screen. The logical
screen and cursor of each terminal are what its own prints and stores, made while it is
scheduled, and its echoes, made while it is visible, leave on a console of its own; and
no action but a tick can fail as long as the cursors stay on the screen. -/
theorem logical_screens (fs : Fs) (p : Paging) (mem : Memory) (es : List Event) (k0 : Kernel)
    (hpre : run (Kernel.step fs) (Kernel.boot p mem) es = some k0) (htick : 0 ≤ k0.terminalNum)
    (acts : List ScreenAct) (k : Kernel) (hr : run (Kernel.screenAct fs) k0 acts = some k)
    (hon : Always (Kernel.screenAct fs) CursorsOn k0 acts) :
    (∀ t, logical k t = applyAll (ownedOps t k0.terminalNum k0.currentVisible acts) (logical k0 t)) ∧
    (∀ a, (∀ esp ebp env, a ≠ .tick esp ebp env) →
      (∀ t, (applyAll (owned t k.terminalNum k.currentVisible a) (logical k t)).cursor.OnScreen) →
      (k.screenAct fs a).isSome) := by
  obtain ⟨last, hmapped⟩ := Kernel.mapped_run hpre
  obtain ⟨hlogical, hon', h0, last', h'⟩ := screen_run hmapped htick hr hon
  obtain ⟨pid, t, v, hshown⟩ := shown_of_mapped h' h0
  exact ⟨hlogical, fun a hnot hafter => screen_total hshown hon' hafter hnot⟩

instance (cur : Cursor) : Decidable cur.OnScreen :=
  decidable_of_iff (0 ≤ 80 * cur.screenY + cur.screenX ∧ cur.screenY < 25 ∧ cur.screenX ≤ 80)
    ⟨fun h => ⟨h.1, h.2.1, h.2.2⟩, fun h => ⟨h.low, h.row, h.col⟩⟩

instance (k : Kernel) : Decidable (CursorsOn k) :=
  inferInstanceAs (Decidable (∀ t : Fin 3, (k.cursor t.val).OnScreen))

/-- The first shell prints in view and, after a switch, in the background; the second one
prints and stores in view. -/
def switchedPrints : List ScreenAct :=
  [.putc 0x41, .echo 0x62, .switch 1, .putc 0x43, .tick 0 0 zeroEnv, .putc 0x44, .store 9 0x45, .switch 0]

theorem logical_screens_switched :
    ∃ k0 k, run (Kernel.step smallFs) (Kernel.boot linkedPaging fun _ => 0) [.tick 0 0 zeroEnv] = some k0 ∧
      run (Kernel.screenAct smallFs) k0 switchedPrints = some k ∧
      logical k 0 = applyAll [Tty.putc 0x41, Tty.putc 0x62, Tty.putc 0x43] (logical k0 0) ∧
      logical k 1 = applyAll [Tty.putc 0x44, Tty.store 9 0x45] (logical k0 1) ∧
      logical k 2 = applyAll [] (logical k0 2) := by
  have hrun : ((run (Kernel.step smallFs) (Kernel.boot linkedPaging fun _ => 0)
      [.tick 0 0 zeroEnv]).bind fun k0 => (run (Kernel.screenAct smallFs) k0 switchedPrints).map fun _ =>
        (k0.terminalNum, k0.currentVisible,
          decide (Always (Kernel.screenAct smallFs) CursorsOn k0 switchedPrints))) =
      some (0, 0, true) := by decide +kernel
  obtain ⟨k0, h0, hrun⟩ := Option.bind_eq_some_iff.mp hrun
  obtain ⟨k, hr, hq⟩ := Option.map_eq_some_iff.mp hrun
  simp only [Prod.mk.injEq] at hq
  obtain ⟨hn, hv, hon⟩ := hq
  have h := (logical_screens smallFs linkedPaging (fun _ => 0) _ k0 h0 (by omega) switchedPrints k hr
    (of_decide_eq_true hon)).1
  rw [hn, hv] at h
  exact ⟨k0, k, h0, hr, h 0, h 1, h 2⟩

end Flipit
