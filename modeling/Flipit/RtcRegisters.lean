import Flipit.Kernel

/- The real-time clock behind the driver: the accesses of RTC_driver.c to ports 0x70 and 0x71,
   one at a time. The chip has one index for all who use it, the driver does not clear the
   interrupt flag around an access, and system calls run with interrupts on, so between any
   two accesses of a process there may be an RTC interrupt, whose handler selects register C,
   or accesses of another process.

   `unsplit_run` says what holds if every access to a register comes directly behind its select.
   `rate_race` says what interrupts at each of the four places of `RTC_write` make of register A.

   The chip is the documented one: register C is read-only and a read clears it, and the
   highest bit of register A, which the chip changes by itself, is read-only. -/
namespace Flipit.RtcChip
open Machine

structure Chip where
  /-- The last byte that went to port 0x70; its highest bit is the NMI gate. -/
  index : UInt8
  a : UInt8
  b : UInt8
  c : UInt8
  /-- The time and the CMOS memory. -/
  others : UInt8 → UInt8

namespace Chip

def select (s : Chip) (v : UInt8) : Chip := { s with index := v }

def register (s : Chip) : UInt8 := s.index &&& 0x7F

def inb (s : Chip) : UInt8 × Chip :=
  if s.register = 0x0A then (s.a, s)
  else if s.register = 0x0B then (s.b, s)
  else if s.register = 0x0C then (s.c, { s with c := 0 })
  else (s.others s.register, s)

def outb (s : Chip) (v : UInt8) : Chip :=
  if s.register = 0x0A then { s with a := (v &&& 0x7F) ||| (s.a &&& 0x80) }
  else if s.register = 0x0B then { s with b := v }
  else if s.register = 0x0C then s
  else { s with others := Function.update s.others s.register v }

/-- `RTC_interrupt_handler`, behind an interrupt gate. -/
def rtcInterruptHandler (s : Chip) : Chip := (s.select 0x0C).inb.2

/-- What the chip does by itself: flags in register C, and the update bit of register A. -/
def runs (s : Chip) (flags : UInt8) (update : Bool) : Chip :=
  { s with c := s.c ||| flags, a := (s.a &&& 0x7F) ||| (if update then 0x80 else 0) }

end Chip

/-- Where a process is in `RTC_open` or `RTC_write`: the port access it makes next, with the rate it
is to set and the byte it has read. -/
inductive Pc where
  | user
  | selectB
  | readB
  | selectAgainB (prev : UInt8)
  | writeB (prev : UInt8)
  | selectA (rate : UInt8)
  | readA (rate : UInt8)
  | selectAgainA (rate prev : UInt8)
  | writeA (rate prev : UInt8)

/-- One port access. -/
def Pc.access (s : Chip) : Pc → Option (Pc × Chip)
  | .user => none
  | .selectB => some (.readB, s.select 0x8B)
  | .readB => some (.selectAgainB s.inb.1, s.inb.2)
  | .selectAgainB prev => some (.writeB prev, s.select 0x8B)
  -- `RTC_open` goes on with 2 Hz
  | .writeB prev => some (.selectA 0x0F, s.outb (prev ||| 0x40))
  | .selectA rate => some (.readA rate, s.select 0x8A)
  | .readA rate => some (.selectAgainA rate s.inb.1, s.inb.2)
  | .selectAgainA rate prev => some (.writeA rate prev, s.select 0x8A)
  | .writeA rate prev => some (.user, s.outb ((prev &&& 0xF0) ||| rate))

/-- Where `RTC_write` goes with these arguments, and its result where it ends there. -/
def rtcWrite (buf : Option Bytes.Memory) (nbytes : Int) : Pc × Int :=
  match buf with
  | none => (.user, -1)
  | some s =>
    let frequency := Bytes.toInt32 (Bytes.word s 0)
    if nbytes ≤ 0 then (.user, -1)
    else if frequency > 1024 ∨ frequency < 2 then (.user, -1)
    else if frequency.toNat &&& (frequency.toNat - 1) ≠ 0 then (.user, -1)
    else (.selectA (UInt8.ofNat (Kernel.rtcRateLoop 10 frequency.toNat 15)), 0)

/-- The chip and the processes. -/
structure State where
  chip : Chip
  pc : Nat → Pc

inductive Event where
  | callOpen (i : Nat)
  | callWrite (i : Nat) (buf : Option Bytes.Memory) (nbytes : Int)
  /-- The next port access of a process. -/
  | port (i : Nat)
  | interrupt
  | runs (flags : UInt8) (update : Bool)

namespace State

def start (chip : Chip) : State := ⟨chip, fun _ => .user⟩

def goTo (s : State) (i : Nat) (pc : Pc) : State := { s with pc := Function.update s.pc i pc }

def step (s : State) : Event → Option (Unit × State)
  | .callOpen i => match s.pc i with
    | .user => some ((), s.goTo i .selectB)
    | _ => none
  | .callWrite i buf nbytes => match s.pc i with
    | .user => some ((), s.goTo i (rtcWrite buf nbytes).1)
    | _ => none
  | .port i => ((s.pc i).access s.chip).map fun r => ((), { s.goTo i r.1 with chip := r.2 })
  | .interrupt => some ((), { s with chip := s.chip.rtcInterruptHandler })
  | .runs flags update => some ((), { s with chip := s.chip.runs flags update })

end State

/-! ## Interrupts inside RTC_write -/

/-- The accesses of a process with so many interrupts before each. -/
def accesses (i : Nat) (before : List Nat) : List Event :=
  before.flatMap fun n => List.replicate n .interrupt ++ [.port i]

namespace Chip

variable {s : Chip} {v : UInt8}

/-- The chip behind so many interrupts. -/
def interrupted (s : Chip) (n : Nat) : Chip := if n = 0 then s else { s with index := 0x0C, c := 0 }

theorem handler_eq (s : Chip) : s.rtcInterruptHandler = { s with index := 0x0C, c := 0 } := by
  have hregister : (s.select 0x0C).register = 0x0C := by
    simp only [register, select]
    decide
  simp only [rtcInterruptHandler, inb, hregister]
  rfl

theorem outb_a (h : s.index = 0x8A) : s.outb v = { s with a := (v &&& 0x7F) ||| (s.a &&& 0x80) } := by
  have hregister : s.register = 0x0A := by
    rw [register, h]
    decide
  rw [outb, if_pos hregister]

theorem inb_a (h : s.index = 0x8A) : s.inb = (s.a, s) := by
  have hregister : s.register = 0x0A := by
    rw [register, h]
    decide
  rw [inb, if_pos hregister]

theorem outb_b (h : s.index = 0x8B) : s.outb v = { s with b := v } := by
  have hregister : s.register = 0x0B := by
    rw [register, h]
    decide
  rw [outb, hregister, if_neg (by decide), if_pos rfl]

theorem inb_b (h : s.index = 0x8B) : s.inb = (s.b, s) := by
  have hregister : s.register = 0x0B := by
    rw [register, h]
    decide
  rw [inb, hregister, if_neg (by decide), if_pos rfl]

theorem outb_c (h : s.index = 0x0C) : s.outb v = s := by
  have hregister : s.register = 0x0C := by
    rw [register, h]
    decide
  rw [outb, hregister, if_neg (by decide), if_neg (by decide), if_pos rfl]

theorem inb_c (h : s.index = 0x0C) : s.inb = (s.c, { s with c := 0 }) := by
  have hregister : s.register = 0x0C := by
    rw [register, h]
    decide
  rw [inb, hregister, if_neg (by decide), if_neg (by decide), if_pos rfl]

end Chip

theorem run_interrupts (s : State) (n : Nat) :
    run State.step s (List.replicate n .interrupt) = some { s with chip := s.chip.interrupted n } := by
  induction n generalizing s with
  | zero => rfl
  | succ n ih =>
    have hagain : s.chip.rtcInterruptHandler.interrupted n = s.chip.interrupted (n + 1) := by
      rw [Chip.handler_eq, Chip.interrupted, Chip.interrupted]
      split <;> simp
    rw [List.replicate_succ, run, State.step, Option.bind_some, ih]
    dsimp only
    rw [hagain]

theorem run_accesses (s : State) (i n : Nat) (before : List Nat) :
    run State.step s (accesses i (n :: before)) =
      ((s.pc i).access (s.chip.interrupted n)).bind fun r =>
        run State.step { s.goTo i r.1 with chip := r.2 } (accesses i before) := by
  rw [accesses, List.flatMap_cons, List.append_assoc, run_append, run_interrupts, Option.bind_some,
    List.singleton_append, run, State.step, Option.bind_map]
  rfl

/-! ## Register A -/

section
variable {a x r : UInt8}

theorem or_and (x y z : UInt8) : (x ||| y) &&& z = (x &&& z) ||| (y &&& z) :=
  UInt8.toBitVec_inj.mp BitVec.and_or_distrib_right

/-- What a write of a rate makes of register A, with `x` as the byte read. -/
def written (a x r : UInt8) : UInt8 := (((x &&& 0xF0) ||| r) &&& 0x7F) ||| (a &&& 0x80)

theorem written_and (m : UInt8) : written a x r &&& m =
    (x &&& (0xF0 &&& (0x7F &&& m))) ||| (r &&& (0x7F &&& m)) ||| (a &&& (0x80 &&& m)) := by
  rw [written, or_and, or_and, or_and, UInt8.and_assoc, UInt8.and_assoc, UInt8.and_assoc, UInt8.and_assoc]

theorem written_rate (h : r &&& 0x0F = r) : written a x r &&& 0x0F = r := by
  rw [written_and]
  change (x &&& 0) ||| (r &&& 0x0F) ||| (a &&& 0) = r
  simp [h]

theorem rate_and (h : r &&& 0x0F = r) (m : UInt8) : r &&& m = r &&& (0x0F &&& m) := by
  rw [← UInt8.and_assoc, h]

theorem written_divider (h : r &&& 0x0F = r) : written a x r &&& 0x70 = x &&& 0x70 := by
  rw [written_and]
  change (x &&& 0x70) ||| (r &&& 0x70) ||| (a &&& 0) = x &&& 0x70
  rw [rate_and h]
  change (x &&& 0x70) ||| (r &&& 0) ||| (a &&& 0) = x &&& 0x70
  simp

theorem rtcRateLoop_le (n f r : Nat) : Kernel.rtcRateLoop n f r ≤ r := by
  induction n generalizing f r with
  | zero => exact le_refl r
  | succ n ih =>
    rw [Kernel.rtcRateLoop]
    split
    · exact le_refl r
    · exact (ih ..).trans (Nat.sub_le ..)

theorem ofNat_rate : ∀ k : Fin 16, UInt8.ofNat k.val &&& 0x0F = UInt8.ofNat k.val := by decide

theorem ofNat_loop (f : Nat) :
    UInt8.ofNat (Kernel.rtcRateLoop 10 f 15) &&& 0x0F = UInt8.ofNat (Kernel.rtcRateLoop 10 f 15) :=
  ofNat_rate ⟨_, Nat.lt_succ_of_le (rtcRateLoop_le 10 f 15)⟩

theorem rtcWrite_rate {buf : Option Bytes.Memory} {nbytes : Int} {n : Int} (h : rtcWrite buf nbytes = (.selectA r, n)) :
    r &&& 0x0F = r := by
  cases buf with
  | none => cases h
  | some s =>
    rw [rtcWrite] at h
    split at h
    · cases h
    · split at h
      · cases h
      · split at h
        · cases h
        · obtain ⟨hpc, -⟩ := Prod.mk.inj h
          obtain rfl := Pc.selectA.inj hpc
          exact ofNat_loop _

end

theorem run_write (s : State) (i : Nat) (buf : Option Bytes.Memory) (nbytes : Int) (rate : UInt8) (n₁ n₂ n₃ n₄ : Nat)
    (hpc : s.pc i = .user) (hwrite : rtcWrite buf nbytes = (.selectA rate, 0)) :
    ∃ s', run State.step s (.callWrite i buf nbytes :: accesses i [n₁, n₂, n₃, n₄]) = some s' ∧ s'.pc i = .user ∧
      s'.chip.a = (if n₄ = 0 then written s.chip.a (if n₂ = 0 then s.chip.a else 0) rate else s.chip.a) ∧
      s'.chip.b = s.chip.b := by
  obtain ⟨c1, hc1⟩ : ∃ c1, c1 = (s.chip.interrupted n₁).select 0x8A := ⟨_, rfl⟩
  obtain ⟨r, hr⟩ : ∃ r, r = (c1.interrupted n₂).inb := ⟨_, rfl⟩
  obtain ⟨c3, hc3⟩ : ∃ c3, c3 = (r.2.interrupted n₃).select 0x8A := ⟨_, rfl⟩
  have hrun : run State.step s (.callWrite i buf nbytes :: accesses i [n₁, n₂, n₃, n₄]) =
      some ⟨(c3.interrupted n₄).outb ((r.1 &&& 0xF0) ||| rate), Function.update s.pc i .user⟩ := by
    rw [run, State.step, hpc, hwrite]
    simp only [Option.bind_some, run_accesses, State.goTo, Function.update_self, Function.update_idem, Pc.access,
      hc1, hr, hc3]
    rfl
  have ha1 : c1.a = s.chip.a ∧ c1.b = s.chip.b ∧ c1.index = 0x8A := by
    rw [hc1, Chip.interrupted]
    split <;> simp [Chip.select]
  have hread : r.1 = (if n₂ = 0 then s.chip.a else 0) ∧ r.2.a = s.chip.a ∧ r.2.b = s.chip.b := by
    rw [hr, Chip.interrupted]
    split
    · rw [Chip.inb_a ha1.2.2]
      exact ⟨ha1.1, ha1.1, ha1.2.1⟩
    · rw [Chip.inb_c rfl]
      exact ⟨rfl, ha1.1, ha1.2.1⟩
  have ha3 : c3.a = s.chip.a ∧ c3.b = s.chip.b ∧ c3.index = 0x8A := by
    rw [hc3, Chip.interrupted]
    split <;> simp [Chip.select, hread]
  refine ⟨_, hrun, Function.update_self .., ?_, ?_⟩
  · dsimp only
    rw [Chip.interrupted]
    split
    · rw [Chip.outb_a ha3.2.2, hread.1]
      dsimp only
      rw [ha3.1, written]
    · rw [Chip.outb_c rfl]
      exact ha3.1
  · dsimp only
    rw [Chip.interrupted]
    split
    · rw [Chip.outb_a ha3.2.2]
      exact ha3.2.1
    · rw [Chip.outb_c rfl]
      exact ha3.2.1

/-- A call of `RTC_write` that returns 0, with any numbers of RTC interrupts before its four accesses to
the ports: the rate is set if and only if none comes before the last, or it was set already; and the
divider stays if and only if none comes before the read, or the last write is lost, or there was none. -/
theorem rate_race (s : State) (i : Nat) (buf : Option Bytes.Memory) (nbytes : Int) (rate : UInt8) (n₁ n₂ n₃ n₄ : Nat)
    (hpc : s.pc i = .user) (hwrite : rtcWrite buf nbytes = (.selectA rate, 0)) :
    ∃ s', run State.step s (.callWrite i buf nbytes :: accesses i [n₁, n₂, n₃, n₄]) = some s' ∧ s'.pc i = .user ∧
      s'.chip.b = s.chip.b ∧ (s'.chip.a &&& 0x0F = rate ↔ n₄ = 0 ∨ s.chip.a &&& 0x0F = rate) ∧
      (s'.chip.a &&& 0x70 = s.chip.a &&& 0x70 ↔ n₂ = 0 ∨ n₄ ≠ 0 ∨ s.chip.a &&& 0x70 = 0) := by
  obtain ⟨s', hrun, huser, ha, hb⟩ := run_write s i buf nbytes rate n₁ n₂ n₃ n₄ hpc hwrite
  have hrate := rtcWrite_rate hwrite
  refine ⟨s', hrun, huser, hb, ?_, ?_⟩
  · rw [ha]
    split
    · rename_i hlast
      simp [written_rate hrate, hlast]
    · rename_i hlast
      simp [hlast]
  · rw [ha]
    split
    · rename_i hlast
      rw [written_divider hrate]
      split
      · rename_i hread
        simp [hread]
      · rename_i hread
        simp [hread, hlast, eq_comm]
    · rename_i hlast
      simp [hlast]

/-- 32 Hz, as `main` of fish asks for: rate 11. -/
def frequency32 : Bytes.Memory := Bytes.cstr [32]

theorem rate_race_lost :
    ∃ s', run State.step (State.start ⟨0, 0x26, 0x02, 0, fun _ => 0⟩)
        (.callWrite 0 (some frequency32) 4 :: accesses 0 [0, 1, 0, 1]) = some s' ∧ s'.pc 0 = .user ∧
      s'.chip.b = 0x02 ∧ (s'.chip.a &&& 0x0F = 11 ↔ 1 = 0 ∨ (0x26 : UInt8) &&& 0x0F = 11) ∧
      (s'.chip.a &&& 0x70 = (0x26 : UInt8) &&& 0x70 ↔ 1 = 0 ∨ 1 ≠ 0 ∨ (0x26 : UInt8) &&& 0x70 = 0) :=
  rate_race _ 0 (some frequency32) 4 11 0 1 0 1 rfl (by rfl)

/-! ## Several processes -/

/-- The register that a process has selected and accesses next. -/
def Pc.selected : Pc → Option UInt8
  | .readB | .writeB _ => some 0x8B
  | .readA _ | .writeA .. => some 0x8A
  | _ => none

/-- No port access but its own comes between a process's select and its access. -/
def Unsplit (s : State × (UInt8 × Bool)) : Event → Prop
  | .port i => ∀ j, (s.1.pc j).selected ≠ none → j = i
  | .interrupt => ∀ j, (s.1.pc j).selected = none
  | _ => True

/-- The rate that was written last, and whether a process has opened the clock. -/
def noted (s : State) (e : Event) (_ : Unit) (_ : State) (g : UInt8 × Bool) : UInt8 × Bool :=
  match e with
  | .port i => match s.pc i with
    | .writeA rate _ => (rate, g.2)
    | .writeB _ => (g.1, true)
    | _ => g
  | _ => g

/-- What a process has read and is to write, over the first values of the registers. -/
def Pc.Fits (a b : UInt8) : Pc → Prop
  | .selectAgainB prev | .writeB prev => prev ||| 0x40 = b ||| 0x40
  | .selectA rate | .readA rate => rate &&& 0x0F = rate
  | .selectAgainA rate prev | .writeA rate prev => rate &&& 0x0F = rate ∧ prev &&& 0x70 = a &&& 0x70
  | _ => True

/-- The registers over their first values `a` and `b`. -/
structure Kept (a b : UInt8) (s : State × (UInt8 × Bool)) : Prop where
  index : ∀ i r, (s.1.pc i).selected = some r → s.1.chip.index = r
  alone : ∀ i j, (s.1.pc i).selected ≠ none → (s.1.pc j).selected ≠ none → i = j
  fits : ∀ i, (s.1.pc i).Fits a b
  rate : s.1.chip.a &&& 0x0F = s.2.1
  divider : s.1.chip.a &&& 0x70 = a &&& 0x70
  enabled : s.1.chip.b = if s.2.2 then b ||| 0x40 else b

section
variable {a b : UInt8} {s t : State × (UInt8 × Bool)} {i : Nat} {pc : Pc} {chip : Chip} {e : Event}

theorem Kept.start (chip : Chip) : Kept chip.a chip.b (State.start chip, (chip.a &&& 0x0F, false)) where
  index i r h := by cases h
  alone i j h := absurd rfl h
  fits i := trivial
  rate := rfl
  divider := rfl
  enabled := rfl

/-- A process moves on, to a place where it has selected nothing, and the chip keeps its index. -/
theorem Kept.moved (h : Kept a b s) (hpc : pc.selected = none) (hfits : pc.Fits a b)
    (hindex : chip.index = s.1.chip.index) {g : UInt8 × Bool} (hrate : chip.a &&& 0x0F = g.1)
    (hdivider : chip.a &&& 0x70 = a &&& 0x70) (henabled : chip.b = if g.2 then b ||| 0x40 else b) :
    Kept a b ({ s.1.goTo i pc with chip := chip }, g) := by
  have hselected : ∀ j, (Function.update s.1.pc i pc j).selected ≠ none → j ≠ i ∧ (s.1.pc j).selected ≠ none := by
    intro j hj
    by_cases hji : j = i
    · rw [hji, Function.update_self] at hj
      exact absurd hpc hj
    · rw [Function.update_of_ne hji] at hj
      exact ⟨hji, hj⟩
  refine ⟨fun j r hj => ?_, fun j j' hj hj' => ?_, fun j => ?_, hrate, hdivider, henabled⟩
  · dsimp only [State.goTo] at hj
    obtain ⟨hji, -⟩ := hselected j (by rw [hj]; simp)
    rw [Function.update_of_ne hji] at hj
    exact hindex.trans (h.index j r hj)
  · exact h.alone j j' (hselected j hj).2 (hselected j' hj').2
  · dsimp only [State.goTo]
    by_cases hji : j = i
    · rw [hji, Function.update_self]
      exact hfits
    · rw [Function.update_of_ne hji]
      exact h.fits j

theorem Kept.selects (h : Kept a b s) {v : UInt8} (hpc : pc.selected = some v) (hfits : pc.Fits a b)
    (hnone : ∀ j, (s.1.pc j).selected ≠ none → j = i) :
    Kept a b ({ s.1.goTo i pc with chip := s.1.chip.select v }, s.2) := by
  have hself : ∀ j, (Function.update s.1.pc i pc j).selected ≠ none → j = i := by
    intro j hj
    by_cases hji : j = i
    · exact hji
    · rw [Function.update_of_ne hji] at hj
      exact hnone j hj
  refine ⟨fun j r hj => ?_, fun j j' hj hj' => ?_, fun j => ?_, h.rate, h.divider, h.enabled⟩
  · dsimp only [State.goTo] at hj
    obtain rfl := hself j (by rw [hj]; simp)
    rw [Function.update_self, hpc] at hj
    exact Option.some.inj hj
  · exact (hself j hj).trans (hself j' hj').symm
  · dsimp only [State.goTo]
    by_cases hji : j = i
    · rw [hji, Function.update_self]
      exact hfits
    · rw [Function.update_of_ne hji]
      exact h.fits j

theorem rtcWrite_fits (buf : Option Bytes.Memory) (nbytes : Int) :
    (rtcWrite buf nbytes).1.selected = none ∧ (rtcWrite buf nbytes).1.Fits a b := by
  cases buf with
  | none => exact ⟨rfl, trivial⟩
  | some s =>
    rw [rtcWrite]
    split
    · exact ⟨rfl, trivial⟩
    · split
      · exact ⟨rfl, trivial⟩
      · split
        · exact ⟨rfl, trivial⟩
        · exact ⟨rfl, ofNat_loop _⟩

theorem Kept.port (h : Kept a b s) (hunsplit : Unsplit s (.port i)) {r : Pc × Chip}
    (hstep : (s.1.pc i).access s.1.chip = some r) :
    Kept a b ({ s.1.goTo i r.1 with chip := r.2 }, noted s.1 (.port i) () s.1 s.2) := by
  have hfits := h.fits i
  have hindex := h.index i
  unfold noted
  dsimp only
  cases hpc : s.1.pc i with
  | user =>
    rw [hpc] at hstep
    cases hstep
  | selectB =>
    rw [hpc] at hstep
    obtain rfl := Option.some.inj hstep
    exact h.selects rfl trivial hunsplit
  | readB =>
    rw [hpc] at hstep hindex
    obtain rfl := Option.some.inj hstep
    rw [Chip.inb_b (hindex _ rfl)]
    apply h.moved rfl ?_ rfl h.rate h.divider h.enabled
    rw [Pc.Fits, h.enabled]
    split
    · rw [UInt8.or_assoc, UInt8.or_self]
    · rfl
  | selectAgainB prev =>
    rw [hpc] at hstep hfits
    obtain rfl := Option.some.inj hstep
    exact h.selects rfl hfits hunsplit
  | writeB prev =>
    rw [hpc] at hstep hindex hfits
    obtain rfl := Option.some.inj hstep
    rw [Chip.outb_b (hindex _ rfl)]
    apply h.moved
    · rfl
    · change (0x0F : UInt8) &&& 0x0F = 0x0F
      decide
    · rfl
    · exact h.rate
    · exact h.divider
    · exact hfits
  | selectA rate =>
    rw [hpc] at hstep hfits
    obtain rfl := Option.some.inj hstep
    exact h.selects rfl hfits hunsplit
  | readA rate =>
    rw [hpc] at hstep hindex hfits
    obtain rfl := Option.some.inj hstep
    rw [Chip.inb_a (hindex _ rfl)]
    apply h.moved
    · rfl
    · exact ⟨hfits, h.divider⟩
    · rfl
    · exact h.rate
    · exact h.divider
    · exact h.enabled
  | selectAgainA rate prev =>
    rw [hpc] at hstep hfits
    obtain rfl := Option.some.inj hstep
    exact h.selects rfl hfits hunsplit
  | writeA rate prev =>
    rw [hpc] at hstep hindex hfits
    obtain rfl := Option.some.inj hstep
    rw [Chip.outb_a (hindex _ rfl)]
    apply h.moved
    · rfl
    · trivial
    · rfl
    · exact written_rate hfits.1
    · exact (written_divider hfits.1).trans hfits.2
    · exact h.enabled

theorem Kept.step (h : Kept a b s) (hunsplit : Unsplit s e) {o : Unit × (State × (UInt8 × Bool))}
    (hstep : ghost State.step noted s e = some o) : Kept a b o.2 := by
  obtain ⟨r, hr, rfl⟩ := Option.map_eq_some_iff.mp hstep
  cases e with
  | callOpen i =>
    rw [State.step] at hr
    split at hr
    · obtain rfl := Option.some.inj hr
      apply h.moved
      · rfl
      · trivial
      · rfl
      · exact h.rate
      · exact h.divider
      · exact h.enabled
    · cases hr
  | callWrite i buf nbytes =>
    rw [State.step] at hr
    split at hr
    · obtain rfl := Option.some.inj hr
      obtain ⟨hselected, hfits⟩ := rtcWrite_fits buf nbytes
      exact h.moved hselected hfits rfl h.rate h.divider h.enabled
    · cases hr
  | port i =>
    obtain ⟨r', hr', rfl⟩ := Option.map_eq_some_iff.mp hr
    exact h.port hunsplit hr'
  | interrupt =>
    obtain rfl := Option.some.inj hr
    have hnone : ∀ j, (s.1.pc j).selected = none := hunsplit
    rw [Chip.handler_eq]
    refine ⟨fun j r hj => ?_, h.alone, h.fits, h.rate, h.divider, h.enabled⟩
    dsimp only at hj
    rw [hnone j] at hj
    cases hj
  | runs flags update =>
    obtain rfl := Option.some.inj hr
    have hbit : ∀ m : UInt8, 0x80 &&& m = 0 → 0x7F &&& m = m →
        ((s.1.chip.a &&& 0x7F) ||| (if update then 0x80 else 0)) &&& m = s.1.chip.a &&& m := by
      intro m hm hm'
      rw [or_and, UInt8.and_assoc, hm']
      cases update <;> simp [hm]
    refine ⟨h.index, h.alone, h.fits, (hbit 0x0F (by decide) (by decide)).trans h.rate,
      (hbit 0x70 (by decide) (by decide)).trans h.divider, h.enabled⟩

end

/-- Any number of processes in `RTC_open` and `RTC_write`, preempted anywhere but between a select and
its access, and interrupted there neither: the clock has the rate that was written last, the divider it
had first, and periodic interrupts from the first open on; no other bit of register B changes. -/
theorem unsplit_run (chip : Chip) (es : List Event) {s : State} {rate : UInt8} {opened : Bool}
    (hrun : run (ghost State.step noted) (State.start chip, (chip.a &&& 0x0F, false)) es = some (s, (rate, opened)))
    (hunsplit : Meets (ghost State.step noted) Unsplit (State.start chip, (chip.a &&& 0x0F, false)) es) :
    s.chip.a &&& 0x0F = rate ∧ s.chip.a &&& 0x70 = chip.a &&& 0x70 ∧
      s.chip.b = if opened then chip.b ||| 0x40 else chip.b := by
  have hkept : Kept chip.a chip.b (s, (rate, opened)) :=
    run_invariant (fun h hG hs => h.step hG hs) (Kept.start chip) hunsplit hrun
  exact ⟨hkept.rate, hkept.divider, hkept.enabled⟩

/-- Only the processes below `n` move, and none but its own access comes behind the select of one of them. -/
def UnsplitBelow (n : Nat) (s : State × (UInt8 × Bool)) : Event → Prop
  | .callOpen i | .callWrite i _ _ => i < n
  | .port i => i < n ∧ ∀ j < n, (s.1.pc j).selected ≠ none → j = i
  | .interrupt => ∀ j < n, (s.1.pc j).selected = none
  | .runs .. => True

instance (n : Nat) (s : State × (UInt8 × Bool)) : (e : Event) → Decidable (UnsplitBelow n s e)
  | .callOpen _ | .callWrite .. => inferInstanceAs (Decidable (_ < _))
  | .port _ => inferInstanceAs (Decidable (_ ∧ _))
  | .interrupt => inferInstanceAs (Decidable (∀ _ < _, _))
  | .runs .. => .isTrue trivial

section
variable {s : State × (UInt8 × Bool)} {e : Event} {n : Nat}

theorem UnsplitBelow.unsplit (hidle : ∀ j, n ≤ j → s.1.pc j = .user) (h : UnsplitBelow n s e) : Unsplit s e := by
  have hbelow : ∀ j, (s.1.pc j).selected ≠ none → j < n := by
    intro j hj
    by_contra hn
    rw [hidle j (Nat.le_of_not_lt hn)] at hj
    exact hj rfl
  cases e with
  | port i => exact fun j hj => h.2 j (hbelow j hj) hj
  | interrupt =>
    intro j
    by_contra hj
    exact hj (h j (hbelow j hj))
  | _ => trivial

theorem UnsplitBelow.idle (hidle : ∀ j, n ≤ j → s.1.pc j = .user) (h : UnsplitBelow n s e)
    {r : Unit × (State × (UInt8 × Bool))} (hr : ghost State.step noted s e = some r) :
    ∀ j, n ≤ j → r.2.1.pc j = .user := by
  obtain ⟨o, hs, rfl⟩ := Option.map_eq_some_iff.mp hr
  have hother : ∀ {i}, i < n → ∀ {pc}, ∀ j, n ≤ j → (s.1.goTo i pc).pc j = .user := by
    intro i hi pc j hj
    have hne : j ≠ i := by omega
    exact (Function.update_of_ne hne pc s.1.pc).trans (hidle j hj)
  cases e with
  | callOpen i =>
    rw [State.step] at hs
    split at hs
    · obtain rfl := Option.some.inj hs
      exact hother h
    · cases hs
  | callWrite i buf nbytes =>
    rw [State.step] at hs
    split at hs
    · obtain rfl := Option.some.inj hs
      exact hother h
    · cases hs
  | port i =>
    obtain ⟨r, -, rfl⟩ := Option.map_eq_some_iff.mp hs
    exact hother h.1
  | interrupt =>
    obtain rfl := Option.some.inj hs
    exact hidle
  | runs flags update =>
    obtain rfl := Option.some.inj hs
    exact hidle

theorem unsplit_of_below {es : List Event} (hidle : ∀ j, n ≤ j → s.1.pc j = .user)
    (h : Meets (ghost State.step noted) (UnsplitBelow n) s es) : Meets (ghost State.step noted) Unsplit s es := by
  induction es generalizing s with
  | nil => trivial
  | cons e es ih => exact ⟨h.1.unsplit hidle, fun r hr => ih (h.1.idle hidle hr) (h.2 r hr)⟩

end

/-- One process opens the clock and another one writes 32 Hz, in turns and with interrupts on the way. -/
def opening : List Event :=
  [.callOpen 0, .port 0, .port 0, .interrupt, .runs 0xC0 true, .callWrite 1 (some frequency32) 4] ++
    [.port 0, .port 0, .port 0, .port 0, .port 1, .port 1, .interrupt, .port 0, .port 0, .port 1, .port 1]

theorem unsplit_run_opening :
    ∃ s, run (ghost State.step noted) (State.start ⟨0, 0x26, 0x02, 0, fun _ => 0⟩, (0x26 &&& 0x0F, false)) opening =
        some (s, (11, true)) ∧
      s.chip.a &&& 0x0F = 11 ∧ s.chip.a &&& 0x70 = (0x26 : UInt8) &&& 0x70 ∧ s.chip.b = (0x02 : UInt8) ||| 0x40 := by
  have hrun : (run (ghost State.step noted) (State.start ⟨0, 0x26, 0x02, 0, fun _ => 0⟩, (0x26 &&& 0x0F, false))
      opening).map (fun s => s.2) = some (11, true) := by decide +kernel
  obtain ⟨⟨s, g⟩, hr, rfl⟩ := Option.map_eq_some_iff.mp hrun
  have hunsplit : Meets (ghost State.step noted) (UnsplitBelow 2)
      (State.start ⟨0, 0x26, 0x02, 0, fun _ => 0⟩, (0x26 &&& 0x0F, false)) opening := by decide +kernel
  exact ⟨s, hr, unsplit_run ⟨0, 0x26, 0x02, 0, fun _ => 0⟩ opening hr (unsplit_of_below (fun _ _ => rfl) hunsplit)⟩

end Flipit.RtcChip
