import Flipit.SystemCallGate

/- The gates of the device interrupts, instruction by instruction.

   Those of the RTC and the timer run a wrapper that saves the registers and ends in `iret`. The
   keyboard's has the address of `keyboard_interrupt_handler` itself, a C function that ends in `ret`,
   while `keyboard_wrapper` stands in no gate. The handlers are a parameter, with the compiler's
   convention (`Handles`); for `scheduler` its return is the one on the same kernel stack.

   `interrupt_transparent` says for which gates the interrupted code does not notice: all but the
   keyboard's. `keyboard_goes_on` says how code goes on behind a key.

   `interruptedBlock_eq` says what any number of the other interrupts do to a block of code, which
   can read and write memory: the words it uses must be its own, such as a program's data and the
   locals of a function. Of words that a handler writes too, as `RTC_flag`, it says nothing. -/
namespace Flipit.Gate

inductive Irq
  | rtc | keyboard | pit
  deriving DecidableEq

/-- Where a processor goes on. -/
structure At (W : Type) where
  eip : Word
  cs : Word
  cpu : Cpu W

def kernelCs : Word := 0x10

def user (cs : Word) : Bool := cs &&& 3 == 3

/-- The flags behind an interrupt gate, where IF is clear too. -/
def irqFlags (eflags : Word) : Word := gateFlags eflags &&& ~~~0x200

section
variable {W : Type}

/-- `iret`: to the user level it takes the stack of the program, which `site` names, and else stays on
its own. -/
def iret (site : Site) (program : List Word) (s : Cpu W) : Option (At W) := match s.stack with
  | eip :: cs :: eflags :: rest =>
    if user cs then
      if rest = [site.esp, site.ss] then some ⟨eip, cs, { s with eflags := eflags, stack := program }⟩ else none
    else some ⟨eip, cs, { s with eflags := eflags, stack := rest }⟩
  | _ => none

/-- A handler's first state: on the kernel's stack, which begins empty for a program. -/
def entered (site : Site) (s : Cpu W) : Cpu W :=
  { s with
    eflags := irqFlags s.eflags
    stack := site.eip :: site.cs :: s.eflags :: if user site.cs then [site.esp, site.ss] else s.stack }

def Cpu.withWorld (s : Cpu W) (w : W) : Cpu W := { s with world := w }

variable (alu : Alu) (handler : Irq → Cpu W → Option (Cpu W)) (ra esp : Word)

/-- A wrapper around a handler, up to its `iret`. -/
def saving (first last : List Instr) (i : Irq) (s : Cpu W) : Option (Cpu W) :=
  (block alu (first ++ [.pushal esp, .pushfl]) s).bind fun s =>
  (handler i (s.push ra)).bind fun s =>
  block alu ([.popfl, .popal] ++ last) s

def rtcWrapper : Cpu W → Option (Cpu W) := saving alu handler ra esp [] [] .rtc

def keyboardWrapper : Cpu W → Option (Cpu W) := saving alu handler ra esp [.cli] [.sti] .keyboard

def pitWrapper : Cpu W → Option (Cpu W) := saving alu handler ra esp [.cli] [.sti] .pit

/-- An interrupt at `site`, up to the instruction that follows the handler. -/
def interrupt (site : Site) (s : Cpu W) : Irq → Option (At W)
  | .rtc => (rtcWrapper alu handler ra esp (entered site s)).bind (iret site s.stack)
  | .pit => (pitWrapper alu handler ra esp (entered site s)).bind (iret site s.stack)
  -- the function's `ret` takes the `eip` of the frame alone
  | .keyboard => (handler .keyboard (entered site s)).map fun s => ⟨site.eip, kernelCs, s⟩

end

/-- What the compiler's convention says of a handler: it takes and gives no word, and changes the world,
if it returns. -/
structure Handles {W : Type} (handler : Irq → Cpu W → Option (Cpu W)) (g : Irq → W → Option W) : Prop where
  gone : ∀ i s back rest, s.stack = back :: rest → g i s.world = none → handler i s = none
  returned : ∀ i s back rest w, s.stack = back :: rest → g i s.world = some w →
    ∃ s', handler i s = some s' ∧ s'.world = w ∧ s'.stack = rest ∧
      ∀ r ∈ [Reg.ebx, .esi, .edi, .ebp], s'.reg r = s.reg r

section
variable {W : Type} {alu : Alu} {handler : Irq → Cpu W → Option (Cpu W)} {g : Irq → W → Option W}
variable {s : Cpu W} {ra esp : Word} {site : Site}

theorem popal_pushal {t : Cpu W} {rest : List Word}
    (hstack : t.stack = s.all esp ++ rest) :
    Instr.exec alu t .popal = some { t with reg := s.reg, stack := rest } := by
  simp only [Instr.exec, hstack, Cpu.all, List.cons_append, List.nil_append, Option.some.injEq, Cpu.set,
    Cpu.mk.injEq, and_true]
  funext r
  cases r <;> simp [Function.update]

/-- The registers and the stack of the interrupted code come back; the flags need not, since `iret` has
them still to take. -/
theorem saving_runs (hg : Handles handler g) {first last : List Instr} {i : Irq}
    (hends : first = [] ∧ last = [] ∨ first = [.cli] ∧ last = [.sti]) :
    match g i s.world with
    | none => saving alu handler ra esp first last i s = none
    | some w => ∃ e, saving alu handler ra esp first last i s = some { s with world := w, eflags := e } := by
  obtain ⟨t, e, hfirst, hstack, hworld⟩ : ∃ t : Cpu W, ∃ e, block alu (first ++ [.pushal esp, .pushfl]) s = some t ∧
      t.stack = e :: (s.all esp ++ s.stack) ∧ t.world = s.world := by
    obtain ⟨rfl, -⟩ | ⟨rfl, -⟩ := hends
    · exact ⟨_, _, rfl, rfl, rfl⟩
    · exact ⟨_, _, rfl, rfl, rfl⟩
  have hpushed : (t.push ra).stack = ra :: t.stack := rfl
  cases hw : g i s.world with
  | none =>
    have hnone : handler i (t.push ra) = none := hg.gone i _ ra _ hpushed (hworld ▸ hw)
    change saving alu handler ra esp first last i s = none
    rw [saving, hfirst, Option.bind_some, hnone]
    rfl
  | some w =>
    obtain ⟨u, hrun, huworld, hustack, -⟩ := hg.returned i (t.push ra) ra _ w hpushed (hworld ▸ hw)
    have hpopfl : Instr.exec alu u .popfl = some { u with eflags := e, stack := s.all esp ++ s.stack } := by
      simp only [Instr.exec, hustack, hstack]
    have hpops : block alu [.popfl, .popal] u = some { s with world := w, eflags := e } := by
      have hpopal : Instr.exec alu { u with eflags := e, stack := s.all esp ++ s.stack } .popal =
          some { u with eflags := e, reg := s.reg, stack := s.stack } := popal_pushal rfl
      rw [block, List.foldlM_cons, hpopfl, Option.bind_eq_bind, Option.bind_some, List.foldlM_cons, hpopal, ← huworld]
      rfl
    rw [block] at hpops
    change ∃ e, saving alu handler ra esp first last i s = some { s with world := w, eflags := e }
    rw [saving, hfirst, Option.bind_some, hrun, Option.bind_some, block, List.foldlM_append, hpops]
    obtain ⟨-, rfl⟩ | ⟨-, rfl⟩ := hends
    · exact ⟨_, rfl⟩
    · exact ⟨_, rfl⟩

theorem iret_entered (w : W) (e : Word) :
    iret site s.stack { entered site s with world := w, eflags := e } =
      some ⟨site.eip, site.cs, { s with world := w }⟩ := by
  by_cases huser : user site.cs
  · simp [iret, entered, huser]
  · simp [iret, entered, huser]

theorem wrapped_transparent (hg : Handles handler g) {first last : List Instr} {i : Irq}
    (hends : first = [] ∧ last = [] ∨ first = [.cli] ∧ last = [.sti]) :
    (saving alu handler ra esp first last i (entered site s)).bind (iret site s.stack) =
      (g i s.world).map fun w => ⟨site.eip, site.cs, { s with world := w }⟩ := by
  have hruns := @saving_runs W alu handler g (entered site s) ra esp hg first last i hends
  have hworld : (entered site s).world = s.world := rfl
  rw [hworld] at hruns
  cases hw : g i s.world with
  | none =>
    rw [hw] at hruns
    have hnone : saving alu handler ra esp first last i (entered site s) = none := hruns
    rw [hnone]
    rfl
  | some w =>
    rw [hw] at hruns
    obtain ⟨e, hrun⟩ := hruns
    rw [hrun, Option.bind_some, iret_entered]
    rfl

theorem interrupt_wrapped (hg : Handles handler g) {i : Irq} (hi : i ≠ .keyboard) :
    interrupt alu handler ra esp site s i = (g i s.world).map fun w => ⟨site.eip, site.cs, s.withWorld w⟩ := by
  cases i with
  | rtc => exact wrapped_transparent hg (.inl ⟨rfl, rfl⟩)
  | pit => exact wrapped_transparent hg (.inr ⟨rfl, rfl⟩)
  | keyboard => exact absurd rfl hi

/-- With its wrapper in its gate, the keyboard's interrupt would not be noticed either. -/
theorem keyboardWrapper_transparent (hg : Handles handler g) :
    (keyboardWrapper alu handler ra esp (entered site s)).bind (iret site s.stack) =
      (g .keyboard s.world).map fun w => ⟨site.eip, site.cs, { s with world := w }⟩ :=
  wrapped_transparent hg (.inr ⟨rfl, rfl⟩)

/-- Behind a key, code goes on at the kernel's level, with the rest of the frame left on the stack. -/
theorem keyboard_goes_on (hg : Handles handler g) {w : W} (hw : g .keyboard s.world = some w) :
    ∃ s', interrupt alu handler ra esp site s .keyboard = some ⟨site.eip, kernelCs, s'⟩ ∧ s'.world = w ∧
      s'.stack = site.cs :: s.eflags :: if user site.cs then [site.esp, site.ss] else s.stack := by
  obtain ⟨s', hrun, hworld, hstack, -⟩ := hg.returned .keyboard (entered site s) _ _ w rfl hw
  refine ⟨s', ?_, hworld, hstack⟩
  rw [interrupt, hrun]
  rfl

/-- For any handlers that follow the compiler's convention, at any place of a program or of the kernel:
an interrupt changes the world as its handler does, and the interrupted code goes on where it was with
its level, registers, flags and stack, if and only if the interrupt is not the keyboard's or its handler
does not return. -/
theorem interrupt_transparent (hg : Handles handler g) (i : Irq) :
    interrupt alu handler ra esp site s i =
      (g i s.world).map (fun w => ⟨site.eip, site.cs, { s with world := w }⟩) ↔
    i ≠ .keyboard ∨ g i s.world = none := by
  by_cases hi : i = .keyboard
  · subst hi
    cases hw : g .keyboard s.world with
    | none =>
      have hnone : handler .keyboard (entered site s) = none := hg.gone .keyboard _ _ _ rfl hw
      refine iff_of_true ?_ (.inr rfl)
      rw [interrupt, hnone]
      rfl
    | some w =>
      obtain ⟨s', hrun, -, hstack⟩ := @keyboard_goes_on W alu handler g s ra esp site hg w hw
      refine iff_of_false (fun hsame => ?_) (by simp)
      rw [hrun, Option.map_some, Option.some.injEq, At.mk.injEq] at hsame
      obtain ⟨-, hcs, rfl⟩ := hsame
      have huser : user site.cs = false := by
        rw [← hcs]
        rfl
      -- two words of the frame are still there
      have hlength := congrArg List.length hstack
      simp only [huser, Bool.false_eq_true, if_false, List.length_cons] at hlength
      omega
  · exact iff_of_true (interrupt_wrapped hg hi) (.inl hi)

/-- Interrupts that come one after another before the instruction at `site`, if each leads back to it. -/
def arrive (alu : Alu) (handler : Irq → Cpu W → Option (Cpu W)) (ra esp : Word) (site : Site) (irqs : List Irq)
    (s : Cpu W) : Option (Cpu W) :=
  irqs.foldlM (fun s i => (interrupt alu handler ra esp site s i).bind fun a =>
    if a.eip = site.eip ∧ a.cs = site.cs then some a.cpu else none) s

/-- What handlers do to the world, one after another. -/
def serve (g : Irq → W → Option W) (irqs : List Irq) (w : W) : Option W := irqs.foldlM (fun w i => g i w) w

theorem arrive_eq (hg : Handles handler g) {irqs : List Irq} (hirqs : .keyboard ∉ irqs) :
    arrive alu handler ra esp site irqs s = (serve g irqs s.world).map s.withWorld := by
  unfold serve
  induction irqs generalizing s with
  | nil => rfl
  | cons i irqs ih =>
    rw [List.mem_cons, not_or] at hirqs
    rw [arrive, List.foldlM_cons, interrupt_wrapped hg (Ne.symm hirqs.1), List.foldlM_cons]
    cases hw : g i s.world with
    | none => rfl
    | some w =>
      have hrest := ih (s := s.withWorld w) hirqs.2
      rw [arrive] at hrest
      rw [Option.map_some, Option.bind_some, if_pos ⟨rfl, rfl⟩, Option.bind_eq_bind, Option.bind_some, hrest]
      rfl

theorem value_withWorld {w : W} {o : Operand} : (s.withWorld w).value o = s.value o := by
  cases o <;> rfl

theorem exec_withWorld {i : Instr} (w : W) :
    i.exec alu (s.withWorld w) = (i.exec alu s).map fun s => s.withWorld w := by
  cases i with
  | pushl o =>
    rw [Instr.exec, value_withWorld, Instr.exec]
    cases s.value o <;> rfl
  | movl o r =>
    rw [Instr.exec, value_withWorld, Instr.exec]
    cases s.value o <;> rfl
  | popl r => cases hs : s.stack <;> simp [Instr.exec, Cpu.withWorld, Cpu.set, hs]
  | popfl => cases hs : s.stack <;> simp [Instr.exec, Cpu.withWorld, hs]
  | popal =>
    simp only [Instr.exec, Cpu.withWorld]
    split <;> rfl
  | _ => rfl

theorem exec_world {i : Instr} {t : Cpu W} (h : i.exec alu s = some t) : t.world = s.world := by
  have hsame : i.exec alu (s.withWorld s.world) = _ := exec_withWorld s.world
  have hworld : i.exec alu s = (i.exec alu s).map fun t => t.withWorld s.world := hsame
  rw [h, Option.map_some] at hworld
  have hsome : t = t.withWorld s.world := Option.some.inj hworld
  rw [hsome]
  rfl

end

/-! ## Code under interrupts -/

/-- The words of memory that code can name, in the rest of the machine. -/
structure Words (W : Type) where
  load : W → Word → Word
  store : W → Word → Word → W

/-- An instruction of the wrappers, or a `movl` from or to `disp(base)`. -/
inductive Code
  | plain (i : Instr)
  | loadl (disp : Word) (base r : Reg)
  | storel (r : Reg) (disp : Word) (base : Reg)

section
variable {W : Type} (words : Words W) (alu : Alu)

def Code.exec (s : Cpu W) : Code → Option (Cpu W)
  | plain i => i.exec alu s
  | loadl disp base r => some (s.set r (words.load s.world (s.reg base + disp)))
  | storel r disp base => some (s.withWorld (words.store s.world (s.reg base + disp) (s.reg r)))

/-- The address of the operand in memory. -/
def Code.address (s : Cpu W) : Code → Option Word
  | plain _ => none
  | loadl disp base _ => some (s.reg base + disp)
  | storel _ disp base => some (s.reg base + disp)

def codeBlock (cs : List Code) (s : Cpu W) : Option (Cpu W) := cs.foldlM (Code.exec words alu) s

/-- By itself, the block names only words of its own. -/
def Uses (own : Word → Prop) : List Code → Cpu W → Prop
  | [], _ => True
  | c :: cs, s => (∀ a, c.address s = some a → own a) ∧ ∀ t, c.exec words alu s = some t → Uses own cs t

/-- A block with the interrupts that come before each of its instructions. -/
def interruptedBlock (handler : Irq → Cpu W → Option (Cpu W)) (ra esp : Word) (is : List (Site × List Irq × Code))
    (s : Cpu W) : Option (Cpu W) :=
  is.foldlM (fun s i => (arrive alu handler ra esp i.1 i.2.1 s).bind fun s => i.2.2.exec words alu s) s

end

/-- The handlers of the RTC and the timer neither write the code's own words nor read them. -/
structure Leaves {W : Type} (words : Words W) (own : Word → Prop) (g : Irq → W → Option W) : Prop where
  unwritten : ∀ i ≠ .keyboard, ∀ w w' a, own a → g i w = some w' → words.load w' a = words.load w a
  unread : ∀ i ≠ .keyboard, ∀ w a v, own a → g i (words.store w a v) = (g i w).map fun w => words.store w a v

section
variable {W : Type} {words : Words W} {own : Word → Prop} {alu : Alu} {handler : Irq → Cpu W → Option (Cpu W)}
variable {g : Irq → W → Option W} {s : Cpu W} {ra esp a : Word} {irqs : List Irq} {c : Code} {cs : List Code}

theorem serve_append (irqs irqs' : List Irq) (w : W) :
    serve g (irqs ++ irqs') w = (serve g irqs w).bind (serve g irqs') := List.foldlM_append ..

theorem Leaves.load (hl : Leaves words own g) (ha : own a) (hirqs : .keyboard ∉ irqs) {w w' : W}
    (h : serve g irqs w = some w') : words.load w' a = words.load w a := by
  induction irqs generalizing w with
  | nil =>
    obtain rfl := Option.some.inj h
    rfl
  | cons i irqs ih =>
    rw [List.mem_cons, not_or] at hirqs
    obtain ⟨w1, h1, hrest⟩ := Option.bind_eq_some_iff.mp h
    exact (ih hirqs.2 hrest).trans (hl.unwritten i (Ne.symm hirqs.1) w w1 a ha h1)

theorem Leaves.store (hl : Leaves words own g) (ha : own a) (hirqs : .keyboard ∉ irqs) (w : W) (v : Word) :
    serve g irqs (words.store w a v) = (serve g irqs w).map fun w => words.store w a v := by
  induction irqs generalizing w with
  | nil => rfl
  | cons i irqs ih =>
    rw [List.mem_cons, not_or] at hirqs
    have hfirst := hl.unread i (Ne.symm hirqs.1) w a v ha
    change (g i (words.store w a v)).bind (serve g irqs) = ((g i w).bind (serve g irqs)).map _
    rw [hfirst]
    cases g i w with
    | none => rfl
    | some w1 => exact ih hirqs.2 w1

theorem Leaves.exec (hl : Leaves words own g) (hirqs : .keyboard ∉ irqs)
    (hown : ∀ a, c.address s = some a → own a) :
    ((serve g irqs s.world).bind fun w => c.exec words alu (s.withWorld w)) =
      (c.exec words alu s).bind fun t => (serve g irqs t.world).map t.withWorld := by
  cases c with
  | plain i =>
    simp only [Code.exec, exec_withWorld]
    cases ht : i.exec alu s with
    | none => simp
    | some t =>
      simp only [Option.map_some, Option.bind_some, exec_world ht]
      cases serve g irqs s.world <;> rfl
  | loadl disp base r =>
    simp only [Code.exec, Option.bind_some]
    cases hw : serve g irqs s.world with
    | none => simp [Cpu.set, hw]
    | some w =>
      have hload : words.load w (s.reg base + disp) = words.load s.world (s.reg base + disp) :=
        hl.load (hown _ rfl) hirqs hw
      simp [Cpu.set, Cpu.withWorld, hw, hload]
  | storel r disp base =>
    have hstore := hl.store (hown _ rfl) hirqs s.world (s.reg r)
    simp only [Code.exec, Option.bind_some]
    change _ = (serve g irqs (words.store s.world (s.reg base + disp) (s.reg r))).map _
    rw [hstore, Option.map_map]
    cases serve g irqs s.world <;> rfl

theorem Uses.served (hl : Leaves words own g) (hirqs : .keyboard ∉ irqs) (hu : Uses words alu own cs s) {w : W}
    (hw : serve g irqs s.world = some w) : Uses words alu own cs (s.withWorld w) := by
  induction cs generalizing s w with
  | nil => trivial
  | cons c cs ih =>
    have hexec := @Leaves.exec W words own alu g s irqs c hl hirqs hu.1
    rw [hw, Option.bind_some] at hexec
    refine ⟨fun a ha => hu.1 a ?_, fun t ht => ?_⟩
    · cases c <;> exact ha
    · rw [hexec] at ht
      obtain ⟨t1, h1, ht⟩ := Option.bind_eq_some_iff.mp ht
      obtain ⟨w1, hw1, rfl⟩ := Option.map_eq_some_iff.mp ht
      exact ih (hu.2 t1 h1) hw1

theorem Leaves.block (hl : Leaves words own g) (hirqs : .keyboard ∉ irqs) (hu : Uses words alu own cs s) :
    ((serve g irqs s.world).bind fun w => codeBlock words alu cs (s.withWorld w)) =
      (codeBlock words alu cs s).bind fun t => (serve g irqs t.world).map t.withWorld := by
  induction cs generalizing s with
  | nil =>
    change (serve g irqs s.world).bind (fun w => some (s.withWorld w)) = (serve g irqs s.world).map s.withWorld
    cases serve g irqs s.world <;> rfl
  | cons c cs ih =>
    have hexec := @Leaves.exec W words own alu g s irqs c hl hirqs hu.1
    calc ((serve g irqs s.world).bind fun w => codeBlock words alu (c :: cs) (s.withWorld w))
        = ((serve g irqs s.world).bind fun w => c.exec words alu (s.withWorld w)).bind
            (codeBlock words alu cs) := (Option.bind_assoc ..).symm
      _ = (c.exec words alu s).bind fun t =>
            (serve g irqs t.world).bind fun w => codeBlock words alu cs (t.withWorld w) := by
          rw [hexec, Option.bind_assoc]
          refine Option.bind_congr fun t _ => ?_
          cases serve g irqs t.world <;> rfl
      _ = (c.exec words alu s).bind fun t =>
            (codeBlock words alu cs t).bind fun t => (serve g irqs t.world).map t.withWorld :=
          Option.bind_congr fun t ht => ih (hu.2 t ht)
      _ = (codeBlock words alu (c :: cs) s).bind fun t => (serve g irqs t.world).map t.withWorld :=
          (Option.bind_assoc ..).symm

/-- Interrupts of the RTC and the timer, any of them before each instruction of a block that reads and
writes only words which their handlers leave alone: the registers, the flags, the stack and the
block's own stores are what they are without interrupts, and the handlers do to the world what they
do in their order. The run ends if and only if the block ends by itself and the handlers return. -/
theorem interruptedBlock_eq (hg : Handles handler g) (hl : Leaves words own g) (is : List (Site × List Irq × Code))
    (his : ∀ i ∈ is, .keyboard ∉ i.2.1) (hu : Uses words alu own (is.map fun i => i.2.2) s) :
    interruptedBlock words alu handler ra esp is s =
      (codeBlock words alu (is.map fun i => i.2.2) s).bind fun t =>
        (serve g (is.flatMap fun i => i.2.1) t.world).map t.withWorld := by
  induction is generalizing s with
  | nil => rfl
  | cons i is ih =>
    have hirqs := his i (List.mem_cons_self ..)
    have hexec := @Leaves.exec W words own alu g s i.2.1 i.2.2 hl hirqs hu.1
    have hrest : ∀ j ∈ is, .keyboard ∉ j.2.1 := fun j hj => his j (List.mem_cons_of_mem _ hj)
    calc interruptedBlock words alu handler ra esp (i :: is) s
        = ((serve g i.2.1 s.world).bind fun w => i.2.2.exec words alu (s.withWorld w)).bind
            (interruptedBlock words alu handler ra esp is) := by
          rw [interruptedBlock, List.foldlM_cons, arrive_eq hg hirqs]
          cases serve g i.2.1 s.world <;> rfl
      _ = (i.2.2.exec words alu s).bind fun t => (serve g i.2.1 t.world).bind fun w =>
            interruptedBlock words alu handler ra esp is (t.withWorld w) := by
          rw [hexec, Option.bind_assoc]
          refine Option.bind_congr fun t _ => ?_
          cases serve g i.2.1 t.world <;> rfl
      _ = (i.2.2.exec words alu s).bind fun t =>
            ((serve g i.2.1 t.world).bind fun w => codeBlock words alu (is.map fun i => i.2.2) (t.withWorld w)).bind
              fun u => (serve g (is.flatMap fun i => i.2.1) u.world).map u.withWorld := by
          refine Option.bind_congr fun t ht => ?_
          rw [Option.bind_assoc]
          exact Option.bind_congr fun w hw => ih hrest (Uses.served hl hirqs (hu.2 t ht) hw)
      _ = (i.2.2.exec words alu s).bind fun t => (codeBlock words alu (is.map fun i => i.2.2) t).bind fun u =>
            (serve g (i.2.1 ++ is.flatMap fun i => i.2.1) u.world).map u.withWorld := by
          refine Option.bind_congr fun t ht => ?_
          rw [hl.block hirqs (hu.2 t ht), Option.bind_assoc]
          refine Option.bind_congr fun u _ => ?_
          rw [serve_append]
          cases serve g i.2.1 u.world <;> rfl
      _ = _ := (Option.bind_assoc ..).symm

end

/-- Handlers that count their interrupts, and lose `eax` and the flags. -/
def counts (_ : Irq) (s : Cpu Nat) : Option (Cpu Nat) := match s.stack with
  | _ :: rest => some { s.set .eax 0 with eflags := 0, stack := rest, world := s.world + 1 }
  | [] => none

theorem counts_handles : Handles counts fun _ w => some (w + 1) where
  gone := by simp
  returned i s back rest w hstack hg := by
    have hrun : counts i s = some { s.set .eax 0 with eflags := 0, stack := rest, world := s.world + 1 } := by
      rw [counts, hstack]
    exact ⟨_, hrun, by simpa using hg, rfl, by simp⟩

/-- A program, interrupted by a key on a machine that had no interrupt before. -/
theorem interrupt_transparent_key :
    ¬ interrupt carryZero counts 0x401200 0x800000 ⟨0x80481F0, 0x23, 0x83FFF00, 0x2B⟩ ⟨fun _ => 7, 0x202, [3, 4], 0⟩
      .keyboard = some ⟨0x80481F0, 0x23, ⟨fun _ => 7, 0x202, [3, 4], 1⟩⟩ :=
  mt (interrupt_transparent counts_handles .keyboard).mp (by simp)

/-- Handlers that count in a place of their own, beside the memory. -/
def countsBeside (_ : Irq) (s : Cpu (Nat × (Word → Word))) : Option (Cpu (Nat × (Word → Word))) := match s.stack with
  | _ :: rest => some { s.set .eax 0 with eflags := 0, stack := rest, world := (s.world.1 + 1, s.world.2) }
  | [] => none

theorem countsBeside_handles : Handles countsBeside fun _ w => some (w.1 + 1, w.2) where
  gone := by simp
  returned i s back rest w hstack hg := by
    have hrun : countsBeside i s =
        some { s.set .eax 0 with eflags := 0, stack := rest, world := (s.world.1 + 1, s.world.2) } := by
      rw [countsBeside, hstack]
    exact ⟨_, hrun, by simpa using hg, rfl, by simp⟩

def wordsBeside : Words (Nat × (Word → Word)) := ⟨fun w a => w.2 a, fun w a v => (w.1, Function.update w.2 a v)⟩

/-- A function takes its argument into `eax` and a local, with three interrupts on the way. -/
def saveArgument : List (Site × List Irq × Code) :=
  [(⟨0x401300, 0x10, 0, 0⟩, [.rtc], .plain (.pushl (.reg .ebx))), (⟨0x401301, 0x10, 0, 0⟩, [.pit], .loadl 8 .ebp .eax),
    (⟨0x401304, 0x10, 0, 0⟩, [.rtc], .storel .eax (-4) .ebp)]

theorem interruptedBlock_eq_local :
    (interruptedBlock wordsBeside carryZero countsBeside 0x401200 0x800000 saveArgument
        ⟨fun _ => 0x7FFF00, 0x202, [], (0, fun a => if a = 0x7FFF08 then 42 else 0)⟩).map
      (fun s => (s.reg .eax, s.stack, s.world.1, s.world.2 0x7FFEFC)) = some (42, [0x7FFF00], 3, 42) := by
  have hleaves : Leaves wordsBeside (fun a => a = 0x7FFF08 ∨ a = 0x7FFEFC) fun _ w => some (w.1 + 1, w.2) := by
    refine ⟨fun i _ w w' a _ h => ?_, fun i _ w a v ha => ?_⟩
    · obtain rfl := Option.some.inj h
      rfl
    · rfl
  rw [interruptedBlock_eq countsBeside_handles hleaves saveArgument (by decide)]
  · rfl
  · simp [saveArgument, Uses, Code.address, Code.exec, Instr.exec, Cpu.value, Cpu.push]

end Flipit.Gate
