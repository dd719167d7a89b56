import Flipit.Scheduler

/- The bounds of the text area.

   `putc` and `putc_keyboard` move the cursor by four rules: a newline goes to the
   next row, a character past column 79 wraps before it is written, the last row
   scrolls, and a backspace steps back one column. The first three keep the cursor
   on the screen. The last one is not guarded: in column 0 it goes to column -1, and
   in the first row it stores before the first cell. Through the page at 0xB8000
   that is a page fault, through the back door it lands in the backup page of the
   third terminal.

   `Cursor.after` and `Cursor.stored` say where a byte leaves the cursor and which
   cells it stores, from the cursor alone; `putcVia_after` and `putcVia_touches` tie
   them to the routine. So the screen is safe exactly as long as each backspace that
   reaches it finds a column to step back to (`text_area_iff`). -/
namespace Flipit
open Machine Bytes

namespace Cursor

/-- Column and row are those of the screen; column 80 waits to be wrapped. -/
structure InBounds (cur : Cursor) : Prop where
  left : 0 ≤ cur.screenX
  right : cur.screenX ≤ 80
  top : 0 ≤ cur.screenY
  bottom : cur.screenY < 25

/-- The start of the next row. -/
def newRow (cur : Cursor) : Cursor :=
  { cur with screenX := 0, screenY := if cur.screenY + 1 = 25 then 24 else cur.screenY + 1 }

/-- The cursor after a byte. -/
def after (c : UInt8) (cur : Cursor) : Cursor :=
  if c = 0x0A ∨ c = 0x0D then newRow { cur with previousBufLength := 0 }
  else if c = 0x08 then { cur with screenX := cur.screenX - 1 }
  else
    let cur := if cur.screenX = 80 then cur.newRow else cur
    { cur with screenX := cur.screenX + 1 }

def rowCells (y : Nat) : List Int := (List.range 80).map fun x : Nat => 80 * (y : Int) + x

/-- The cells stored by going to the next row: none, or all of them by scrolling. -/
def newRowCells (cur : Cursor) : List Int :=
  if cur.screenY + 1 = 25 then (List.range 24).flatMap rowCells ++ rowCells 24 else []

/-- The cells a byte stores. -/
def stored (c : UInt8) (cur : Cursor) : List Int :=
  if c = 0x0A ∨ c = 0x0D then newRowCells cur
  else if c = 0x08 then [80 * cur.screenY + (cur.screenX - 1)]
  else if cur.screenX = 80 then newRowCells cur ++ [80 * cur.newRow.screenY + cur.newRow.screenX]
  else [80 * cur.screenY + cur.screenX]

end Cursor

/-! ## The routine -/

section
variable {p : Paging} {base : Nat} {m m' m'' : Memory} {cur cur' : Cursor} {c : UInt8}

/-- Every byte that changed belongs to one of the cells, in the window at `base`. -/
def Touches (p : Paging) (base : Nat) (cells : List Int) (m m' : Memory) : Prop :=
  ∀ a, m' a ≠ m a → ∃ n ∈ cells, ∃ j : Int, (j = 0 ∨ j = 1) ∧
    p.translate ⟨false, true⟩ ((base + 2 * n + j) % 2 ^ 32).toNat = some a

namespace Touches
variable {l l' : List Int}

theorem refl : Touches p base [] m m := fun _ h => absurd rfl h

theorem trans (h : Touches p base l m m') (h' : Touches p base l' m' m'') :
    Touches p base (l ++ l') m m'' := by
  intro a ha
  by_cases h1 : m' a = m a
  · obtain ⟨n, hn, hj⟩ := h' a (by rw [h1]; exact ha)
    exact ⟨n, List.mem_append_right _ hn, hj⟩
  · obtain ⟨n, hn, hj⟩ := h a h1
    exact ⟨n, List.mem_append_left _ hn, hj⟩

theorem foldlM {α : Type} {f : Memory → α → Option Memory} (cells : α → List Int)
    (hf : ∀ m m' x, f m x = some m' → Touches p base (cells x) m m') (xs : List α) :
    ∀ m m', xs.foldlM f m = some m' → Touches p base (xs.flatMap cells) m m' := by
  induction xs with
  | nil =>
    intro m m' h
    obtain rfl := Option.some.inj h
    exact refl
  | cons x xs ih =>
    intro m m' h
    rw [List.foldlM_cons] at h
    obtain ⟨m1, h1, h2⟩ := Option.bind_eq_some_iff.mp h
    rw [List.flatMap_cons]
    exact (hf m m1 x h1).trans (ih m1 m' h2)

end Touches

theorem store_touches {v : Int} {b : UInt8} {a : Nat} (h : p.store m v b = some m') (ha : m' a ≠ m a) :
    p.translate ⟨false, true⟩ (v % 2 ^ 32).toNat = some a := by
  obtain ⟨a', ht, rfl⟩ := Option.map_eq_some_iff.mp h
  by_cases he : a = a'
  · rw [he]; exact ht
  · exact absurd (Function.update_of_ne he ..) ha

theorem putCell_touches {y x : Int} (h : p.putCell base m y x c = some m') :
    Touches p base [80 * y + x] m m' := by
  obtain ⟨m1, h1, h2⟩ := Option.bind_eq_some_iff.mp h
  intro a ha
  refine ⟨_, List.mem_singleton_self _, ?_⟩
  by_cases hc : m1 a = m a
  · exact ⟨1, .inr rfl, store_touches h2 (by rw [hc]; exact ha)⟩
  · have ht := store_touches h1 hc
    rw [Paging.cell] at ht
    exact ⟨0, .inl rfl, by rw [Int.add_zero]; exact ht⟩

theorem liftCell_touches {y x : Nat} (h : p.liftCell base y m x = some m') :
    Touches p base [80 * (y : Int) + x] m m' := by
  obtain ⟨c, -, h2⟩ := Option.bind_eq_some_iff.mp h
  exact putCell_touches h2

theorem row_touches {f : Memory → Nat → Option Memory} (y : Nat)
    (hf : ∀ m m' x, f m x = some m' → Touches p base [80 * (y : Int) + x] m m')
    (h : (List.range 80).foldlM f m = some m') : Touches p base (Cursor.rowCells y) m m' := by
  have ht := Touches.foldlM (fun x : Nat => [80 * (y : Int) + x]) hf (List.range 80) m m' h
  rwa [← List.map_eq_flatMap] at ht

theorem scrollThePage_spec (h : p.scrollThePage base m cur = some (m', cur')) :
    cur' = { cur with screenY := cur.screenY - 1 } ∧
      Touches p base ((List.range 24).flatMap Cursor.rowCells ++ Cursor.rowCells 24) m m' := by
  obtain ⟨m1, h1, h⟩ := Option.bind_eq_some_iff.mp h
  obtain ⟨m2, h2, h⟩ := Option.map_eq_some_iff.mp h
  obtain ⟨rfl, rfl⟩ := Prod.mk.inj h
  have hlift : Touches p base ((List.range 24).flatMap Cursor.rowCells) m m1 := by
    apply Touches.foldlM Cursor.rowCells _ (List.range 24) m m1 h1
    intro m m' y hrow
    exact row_touches y (fun _ _ _ => liftCell_touches) hrow
  have hblank : Touches p base (Cursor.rowCells 24) m1 m2 :=
    row_touches 24 (fun _ _ _ => putCell_touches) h2
  exact ⟨rfl, hlift.trans hblank⟩

theorem nextRow_spec (h : p.nextRow base m cur = some (m', cur')) :
    cur' = cur.newRow ∧ Touches p base cur.newRowCells m m' := by
  unfold Paging.nextRow at h
  unfold Cursor.newRow Cursor.newRowCells
  dsimp only at h
  split_ifs at h ⊢ with h25
  · obtain ⟨rfl, ht⟩ := scrollThePage_spec h
    refine ⟨?_, ht⟩
    simp only [h25]
    rfl
  · obtain ⟨rfl, rfl⟩ := Prod.mk.inj (Option.some.inj h)
    exact ⟨rfl, .refl⟩

/-- Where it does not fault, the routine leaves the cursor where `after` says and touches
the cells `stored` says. -/
theorem putcVia_spec (h : p.putcVia base c m cur = some (m', cur')) :
    cur' = cur.after c ∧ Touches p base (cur.stored c) m m' := by
  unfold Paging.putcVia at h
  unfold Cursor.after Cursor.stored
  split_ifs at h ⊢ with hnl hbs h80
  · exact nextRow_spec h
  · obtain ⟨m1, h1, h⟩ := Option.map_eq_some_iff.mp h
    obtain ⟨rfl, rfl⟩ := Prod.mk.inj h
    exact ⟨rfl, putCell_touches h1⟩
  · obtain ⟨⟨m1, cur1⟩, h1, h⟩ := Option.bind_eq_some_iff.mp h
    obtain ⟨m2, h2, h⟩ := Option.map_eq_some_iff.mp h
    obtain ⟨rfl, rfl⟩ := Prod.mk.inj h
    obtain ⟨rfl, ht⟩ := nextRow_spec h1
    exact ⟨rfl, ht.trans (putCell_touches h2)⟩
  · obtain ⟨⟨m1, cur1⟩, h1, h⟩ := Option.bind_eq_some_iff.mp h
    obtain ⟨m2, h2, h⟩ := Option.map_eq_some_iff.mp h
    obtain ⟨rfl, rfl⟩ := Prod.mk.inj h
    obtain ⟨rfl, rfl⟩ := Prod.mk.inj (Option.some.inj h1)
    exact ⟨rfl, putCell_touches h2⟩

end

/-! ## Bounds -/

namespace Cursor
variable {cur : Cursor} {c : UInt8}

theorem rowCells_bounds {y : Nat} (hy : y < 25) {n : Int} (h : n ∈ rowCells y) : 0 ≤ n ∧ n < 2000 := by
  simp only [rowCells, List.mem_map, List.mem_range] at h
  obtain ⟨x, hx, rfl⟩ := h
  omega

theorem newRowCells_bounds {n : Int} (h : n ∈ newRowCells cur) : 0 ≤ n ∧ n < 2000 := by
  unfold newRowCells at h
  split at h
  · rcases List.mem_append.mp h with h | h
    · obtain ⟨y, hy, hn⟩ := List.mem_flatMap.mp h
      have := List.mem_range.mp hy
      exact rowCells_bounds (by omega) hn
    · exact rowCells_bounds (by omega) h
  · cases h

theorem InBounds.newRow (h : cur.InBounds) : cur.newRow.InBounds := by
  have htop := h.top
  have hbottom := h.bottom
  unfold Cursor.newRow
  split
  · exact ⟨le_refl _, by simp, by simp, by simp⟩
  · exact ⟨le_refl _, by simp, by dsimp only; omega, by dsimp only; omega⟩

/-- From a position on the screen, a byte keeps to the text area exactly if it is not a
backspace in column 0. -/
theorem InBounds.safe_iff (h : cur.InBounds) :
    ((∀ n ∈ cur.stored c, 0 ≤ n ∧ n < 2000) ∧ (cur.after c).InBounds) ↔ (c = 0x08 → 1 ≤ cur.screenX) := by
  have hrow := h.newRow
  obtain ⟨hl, hr, ht, hb⟩ := h
  unfold Cursor.stored Cursor.after
  split_ifs with hnl hbs h80
  · have hne : c ≠ 0x08 := by
      intro he
      subst he
      revert hnl
      decide
    constructor
    · intro _ he
      exact absurd he hne
    · intro _
      exact ⟨fun n => newRowCells_bounds, InBounds.newRow ⟨hl, hr, ht, hb⟩⟩
  · constructor
    · intro hsafe _
      have := hsafe.2.left
      dsimp only at this
      omega
    · intro hroom
      have hx := hroom hbs
      refine ⟨fun n hn => ?_, ?_, ?_, ht, hb⟩
      · rw [List.mem_singleton] at hn
        omega
      · dsimp only; omega
      · dsimp only; omega
  · constructor
    · intro _ he
      exact absurd he hbs
    · intro _
      have hx : cur.newRow.screenX = 0 := rfl
      obtain ⟨-, -, ht', hb'⟩ := hrow
      refine ⟨fun n hn => ?_, ?_, ?_, ht', hb'⟩
      · rcases List.mem_append.mp hn with hn | hn
        · exact newRowCells_bounds hn
        · rw [List.mem_singleton] at hn
          omega
      · dsimp only; omega
      · dsimp only; omega
  · constructor
    · intro _ he
      exact absurd he hbs
    · intro _
      refine ⟨fun n hn => ?_, ?_, ?_, ht, hb⟩
      · rw [List.mem_singleton] at hn
        omega
      · dsimp only; omega
      · dsimp only; omega

end Cursor

/-- Through a window on the VGA frame, such a byte is written, and outside the text area
nothing changes. -/
theorem Window.putcVia_text {p : Paging} {base : Nat} {c : UInt8} {m : Memory} {cur : Cursor}
    (hw : Window p base 0xB8000) (hb : cur.InBounds) (hroom : c = 0x08 → 1 ≤ cur.screenX) :
    ∃ m', p.putcVia base c m cur = some (m', cur.after c) ∧
      ∀ a, ¬ (0xB8000 ≤ a ∧ a < 0xB8000 + 4000) → m' a = m a := by
  have hcells := (hb.safe_iff.mpr hroom).1
  obtain ⟨hl, hr, ht, hbot⟩ := hb
  have hwrite : p.putcVia base c (withPage m 0xB8000 (pageAt m 0xB8000)) cur = some _ :=
    hw.putcVia ⟨by omega, hbot, hr⟩ fun h => by have := hroom h; omega
  rw [withPage_pageAt] at hwrite
  obtain ⟨hcur, htouch⟩ := putcVia_spec hwrite
  rw [hcur] at hwrite
  refine ⟨_, hwrite, fun a ha => ?_⟩
  by_contra hne
  obtain ⟨n, hn, j, hj, htrans⟩ := htouch a hne
  obtain ⟨hn0, hn1⟩ := hcells n hn
  -- the cell lies in the window, so the byte is one of its two
  have hfits := hw.fits
  have hmap := hw.maps (2 * n + j).toNat (by omega) true
  have haddr : (((base : Int) + 2 * n + j) % 2 ^ 32).toNat = base + (2 * n + j).toNat := by omega
  rw [haddr, hmap] at htrans
  have := Option.some.inj htrans
  omega

/-! ## Runs of output -/

/-- A byte printed by the running process, or a key. -/
inductive Output where
  | print (c : UInt8)
  | key (c : UInt8)

namespace Kernel

def output (k : Kernel) : Output → Option (Unit × Kernel)
  | .print c => (k.putc c).map fun k => ((), k)
  | .key c => (k.addToBuffer c).map fun k => ((), k)

/-- The byte that reaches the screen: a key only if it is echoed. -/
def shown (k : Kernel) : Output → Option UInt8
  | .print c => some c
  | .key c => if (k.input.addToBuffer k.currentVisible c).2 then some c else none

/-- The byte stores cells of the text area and leaves the cursor on the screen. -/
def InText (k : Kernel) (x : Output) : Prop :=
  ∀ c, k.shown x = some c →
    (∀ n ∈ (k.cursor k.currentVisible).stored c, 0 ≤ n ∧ n < 2000) ∧
    ((k.cursor k.currentVisible).after c).InBounds

/-- A backspace that reaches the screen finds a column to step back to. -/
def BackspaceRoom (k : Kernel) (x : Output) : Prop :=
  k.shown x = some 0x08 → 1 ≤ (k.cursor k.currentVisible).screenX

/-- The visible terminal runs, and its cursor is on the screen. -/
structure Foreground (k : Kernel) : Prop where
  mapped : ∃ layout last, k.mmu.Ok layout last
  same : k.terminalNum = k.currentVisible
  bounds : (k.cursor k.currentVisible).InBounds

variable {k k' : Kernel} {x : Output}

theorem Foreground.windows (h : Foreground k) :
    Window k.paging 0xB8000 0xB8000 ∧ Window k.paging 0xBC000 0xB8000 := by
  obtain ⟨layout, last, hok⟩ := h.mapped
  have hp : k.paging = Paging.tables layout last 0xB8 := by
    have hp := hok.paging
    rw [show k.mmu.currentVisible = k.mmu.terminalNum from h.same.symm, Paging.shownFrame,
      if_pos rfl] at hp
    exact hp
  rw [hp]
  exact ⟨window_video layout last 0xB8, window_backdoor layout last 0xB8⟩

theorem Foreground.output (h : Foreground k) (hroom : k.BackspaceRoom x) :
    ∃ k', k.output x = some ((), k') ∧ Foreground k' ∧
      ∀ a, ¬ (0xB8000 ≤ a ∧ a < 0xB8000 + 4000) → k'.mem a = k.mem a := by
  obtain ⟨hvideo, hdoor⟩ := h.windows
  cases x with
  | print c =>
    have hroom : c = 0x08 → 1 ≤ (k.cursor k.currentVisible).screenX := fun hc => hroom (by rw [hc]; rfl)
    obtain ⟨m', hw, hmem⟩ := hvideo.putcVia_text (m := k.mem) h.bounds hroom
    rw [← h.same] at hw
    simp only [Kernel.output, putc, hw, Option.map_some]
    refine ⟨_, rfl, ⟨h.mapped, h.same, ?_⟩, hmem⟩
    dsimp only
    rw [← h.same, Function.update_self, h.same]
    exact (h.bounds.safe_iff.mpr hroom).2
  | key c =>
    unfold Kernel.output addToBuffer
    by_cases hecho : (k.input.addToBuffer k.currentVisible c).2 = true
    · have hroom : c = 0x08 → 1 ≤ (k.cursor k.currentVisible).screenX := by
        intro hc
        apply hroom
        rw [← hc]
        exact if_pos hecho
      obtain ⟨m', hw, hmem⟩ := hdoor.putcVia_text (m := k.mem) h.bounds hroom
      simp only [hecho, if_true, putcKeyboard, hw, Option.map_some]
      refine ⟨_, rfl, ⟨h.mapped, h.same, ?_⟩, hmem⟩
      dsimp only
      rw [Function.update_self]
      exact (h.bounds.safe_iff.mpr hroom).2
    · simp only [hecho]
      exact ⟨_, rfl, ⟨h.mapped, h.same, h.bounds⟩, fun _ _ => rfl⟩

theorem Foreground.inText_iff (h : Foreground k) : k.InText x ↔ k.BackspaceRoom x := by
  constructor
  · intro hin hback
    exact h.bounds.safe_iff.mp (hin 0x08 hback) rfl
  · intro hroom c hc
    apply h.bounds.safe_iff.mpr
    intro h8
    exact hroom (by rw [hc, h8])

theorem Foreground.meets_iff (h : Foreground k) (xs : List Output) :
    Meets Kernel.output InText k xs ↔ Meets Kernel.output BackspaceRoom k xs := by
  apply Machine.meets_iff (I := Foreground) Foreground.inText_iff _ h
  intro k x r hk hroom hr
  obtain ⟨k', hs, hk', -⟩ := hk.output hroom
  obtain rfl := Option.some.inj (hr.symm.trans hs)
  exact hk'

theorem Foreground.run (h : Foreground k) {xs : List Output}
    (hG : Meets Kernel.output BackspaceRoom k xs) : ∃ k', Machine.run Kernel.output k xs = some k' ∧
      ∀ a, ¬ (0xB8000 ≤ a ∧ a < 0xB8000 + 4000) → k'.mem a = k.mem a := by
  induction xs generalizing k with
  | nil => exact ⟨k, rfl, fun _ _ => rfl⟩
  | cons x xs ih =>
    obtain ⟨k1, hs, hk1, hmem⟩ := h.output hG.1
    obtain ⟨k', hrun, hmem'⟩ := ih hk1 (hG.2 _ hs)
    refine ⟨k', run_cons.mpr ⟨_, hs, hrun⟩, fun a ha => ?_⟩
    rw [hmem' a ha, hmem a ha]

theorem puts_output (s : List UInt8) : k.puts s = Machine.run Kernel.output k (s.map .print) := by
  induction s generalizing k with
  | nil => rfl
  | cons c s ih =>
    rw [puts_cons, List.map_cons, Machine.run, Kernel.output]
    cases k.putc c with
    | none => rfl
    | some k1 => exact ih

theorem clear_home (h : k.clear = some k') :
    k'.mmu = k.mmu ∧ k'.cursor k'.currentVisible = ⟨0, 0, 0⟩ := by
  obtain ⟨⟨m, cur⟩, h1, rfl⟩ := Option.map_eq_some_iff.mp h
  obtain ⟨m1, -, h2⟩ := Option.map_eq_some_iff.mp h1
  obtain ⟨rfl, rfl⟩ := Prod.mk.inj h2
  exact ⟨rfl, Function.update_self ..⟩

instance (k : Kernel) (x : Output) : Decidable (k.BackspaceRoom x) :=
  inferInstanceAs (Decidable (k.shown x = some 0x08 → 1 ≤ (k.cursor k.currentVisible).screenX))

end Kernel

/-- After any run that leaves the visible terminal scheduled, clear the screen and then
print bytes of any values, with any keys in between. Every byte that reaches the screen
stores cells of the text area only and leaves the cursor on the screen exactly if every
backspace that reaches it finds its column above 0; then nothing faults, and memory
outside the text area stays as it is. A call of `terminal_write` is such a run. -/
theorem text_area_iff {fs : Fs} {q : Paging} {mem : Memory} {es : List Event} {k0 k : Kernel}
    (hrun : run (Kernel.step fs) (Kernel.boot q mem) es = some k0)
    (hsame : k0.terminalNum = k0.currentVisible) (hclear : k0.clear = some k) (xs : List Output) :
    (Meets Kernel.output Kernel.InText k xs ↔ Meets Kernel.output Kernel.BackspaceRoom k xs) ∧
    (Meets Kernel.output Kernel.BackspaceRoom k xs → ∃ k', run Kernel.output k xs = some k' ∧
      ∀ a, ¬ (0xB8000 ≤ a ∧ a < 0xB8000 + 4000) → k'.mem a = k.mem a) ∧
    (∀ (s : Memory) (n : Nat), k.terminalWrite (some s) n =
      (run Kernel.output k ((List.range n).map fun i => .print (s i))).map fun k' => ((n : Int), k')) := by
  obtain ⟨last, hmapped⟩ := Kernel.mapped_run hrun
  obtain ⟨hmmu, hhome⟩ := Kernel.clear_home hclear
  have hfore : k.Foreground := by
    refine ⟨⟨_, last, by rw [hmmu]; exact hmapped.ok⟩, ?_, ?_⟩
    · have h1 : k.terminalNum = k0.terminalNum := congrArg Mmu.terminalNum hmmu
      have h2 : k.currentVisible = k0.currentVisible := congrArg Mmu.currentVisible hmmu
      rw [h1, h2, hsame]
    · rw [hhome]
      exact ⟨le_refl _, by decide, le_refl _, by decide⟩
  refine ⟨hfore.meets_iff xs, hfore.run, fun s n => ?_⟩
  · have hprints := Kernel.puts_output (k := k) ((List.range n).map s)
    rw [List.map_map] at hprints
    rw [Kernel.terminalWrite, if_neg (by omega), Int.toNat_natCast, hprints]
    rfl

/-- A character, one more from the keyboard, and a backspace over it. -/
def eraseOne : List Output := [.print 0x61, .key 0x62, .print 0x08]

theorem cleared_shell : ∃ k0 k,
    run (Kernel.step smallFs) (Kernel.boot linkedPaging fun _ => 0) [.tick 0 0 zeroEnv] = some k0 ∧
    k0.terminalNum = k0.currentVisible ∧ k0.clear = some k ∧
    Meets Kernel.output Kernel.BackspaceRoom k eraseOne ∧ (k.putc 0x08).isNone := by
  have hrun : ((run (Kernel.step smallFs) (Kernel.boot linkedPaging fun _ => 0)
      [.tick 0 0 zeroEnv]).bind fun k0 => k0.clear.map fun k => (decide (k0.terminalNum = k0.currentVisible),
        decide (Meets Kernel.output Kernel.BackspaceRoom k eraseOne), (k.putc 0x08).isNone)) =
      some (true, true, true) := by decide +kernel
  obtain ⟨k0, h0, hrun⟩ := Option.bind_eq_some_iff.mp hrun
  obtain ⟨k, hk, hq⟩ := Option.map_eq_some_iff.mp hrun
  simp only [Prod.mk.injEq, decide_eq_true_eq] at hq
  exact ⟨k0, k, h0, hq.1, hk, hq.2.1, hq.2.2⟩

theorem text_area_iff_erase : ∃ k0 k k',
    run (Kernel.step smallFs) (Kernel.boot linkedPaging fun _ => 0) [.tick 0 0 zeroEnv] = some k0 ∧
    k0.clear = some k ∧ run Kernel.output k eraseOne = some k' ∧
    Meets Kernel.output Kernel.InText k eraseOne := by
  obtain ⟨k0, k, h0, hsame, hk, hroom, -⟩ := cleared_shell
  obtain ⟨hiff, hsafe, -⟩ := text_area_iff h0 hsame hk eraseOne
  obtain ⟨k', hr, -⟩ := hsafe hroom
  exact ⟨k0, k, k', h0, hk, hr, hiff.mpr hroom⟩

/-- A backspace on the cleared screen stores cell -1: a page fault. -/
theorem text_area_left : ∃ k0 k,
    run (Kernel.step smallFs) (Kernel.boot linkedPaging fun _ => 0) [.tick 0 0 zeroEnv] = some k0 ∧
    k0.terminalNum = k0.currentVisible ∧ k0.clear = some k ∧
    (k.cursor k.currentVisible).stored 0x08 = [-1] ∧ (k.putc 0x08).isNone ∧
    ¬ Meets Kernel.output Kernel.InText k [.print 0x08] := by
  obtain ⟨k0, k, h0, hsame, hk, -, hfault⟩ := cleared_shell
  have hstored : (k.cursor k.currentVisible).stored 0x08 = [-1] := by
    rw [(Kernel.clear_home hk).2]
    decide
  refine ⟨k0, k, h0, hsame, hk, hstored, hfault, fun hin => ?_⟩
  have := (hin.1 0x08 rfl).1 (-1) (by rw [hstored]; simp)
  omega

end Flipit
