import Mathlib.Logic.Function.Basic

/- The way of a system call, instruction by instruction: the wrapper of ece391syscall.S, the
   trap gate at 0x80, `sys_handler` with its table, and back by `iret`.

   A stack is the list of its words from `esp` up; the kernel's begins empty, at the `esp0` of the
   TSS. The C functions of the table are a parameter, `callee`: `Cdecl` says of it what the
   compiler's convention does, no more, so a function may do what it likes with the registers
   `eax`, `ecx`, `edx`, the flags and the words of its arguments. `W` is everything else that a
   function can change. A run is `none` if it faults or does not come back, as in `halt`.

   `wrapper_calls` is the result for a program: a wrapper calls the function of its own name on the
   program's arguments, and the program goes on with its result and its registers. -/
namespace Flipit.Gate

abbrev Word := BitVec 32

inductive Reg
  | eax | ecx | edx | ebx | esi | edi | ebp
  deriving DecidableEq

inductive Operand
  | imm (i : Word)
  | reg (r : Reg)
  /-- The `k`-th word from `esp` up. -/
  | esp (k : Nat)

/-- Operands stand in AT&T order, the destination last. -/
inductive Instr
  | pushl (o : Operand)
  | popl (r : Reg)
  | movl (o : Operand) (r : Reg)
  | addl (i : Word) (r : Reg)
  | cmpl (i : Word) (r : Reg)
  | pushfl
  | popfl
  /-- The word that it pushes for `esp` is given: `popal` skips it. -/
  | pushal (esp : Word)
  | popal
  | cli
  | sti

structure Cpu (W : Type) where
  reg : Reg → Word
  eflags : Word
  stack : List Word
  world : W

/-- The flags that an addition and a comparison of two words leave, from those before. -/
structure Alu where
  add : Word → Word → Word → Word
  cmp : Word → Word → Word → Word

/-- CF and ZF behind a comparison of `y` with `x`. -/
structure Alu.Compares (alu : Alu) : Prop where
  carry : ∀ old y x, (alu.cmp old y x).getLsbD 0 = decide (y.toNat < x.toNat)
  zero : ∀ old y x, (alu.cmp old y x).getLsbD 6 = decide (y = x)

/-- The functions of the table `jump`. -/
inductive Sys
  | halt | execute | read | write | open_ | close | getargs | vidmap
  deriving DecidableEq

def jump : List Sys := [.halt, .execute, .read, .write, .open_, .close, .getargs, .vidmap]

/-- The wrappers of ece391syscall.S, without `ece391_`. -/
inductive Wrapper
  | halt | execute | read | write | open_ | close | getargs | vidmap | set_handler | sigreturn
  deriving DecidableEq

/-- The `SYS_` constant of a wrapper. -/
def Wrapper.number : Wrapper → Word
  | halt => 1
  | execute => 2
  | read => 3
  | write => 4
  | open_ => 5
  | close => 6
  | getargs => 7
  | vidmap => 8
  | set_handler => 9
  | sigreturn => 10

section
variable {W : Type}

namespace Cpu

def set (s : Cpu W) (r : Reg) (v : Word) : Cpu W := { s with reg := Function.update s.reg r v }

def push (s : Cpu W) (v : Word) : Cpu W := { s with stack := v :: s.stack }

def value (s : Cpu W) : Operand → Option Word
  | .imm i => some i
  | .reg r => some (s.reg r)
  | .esp k => s.stack[k]?

/-- The words of `pushal`. -/
def all (s : Cpu W) (esp : Word) : List Word :=
  [s.reg .edi, s.reg .esi, s.reg .ebp, esp, s.reg .ebx, s.reg .edx, s.reg .ecx, s.reg .eax]

/-- `jb` -/
def below (s : Cpu W) : Bool := s.eflags.getLsbD 0

/-- `ja` -/
def above (s : Cpu W) : Bool := !s.eflags.getLsbD 0 && !s.eflags.getLsbD 6

/-- `ret`, if it leads to `back`. -/
def ret (s : Cpu W) (back : Word) : Option (Cpu W) := match s.stack with
  | [] => none
  | v :: rest => if v = back then some { s with stack := rest } else none

end Cpu

variable (alu : Alu)

def Instr.exec (s : Cpu W) : Instr → Option (Cpu W)
  | pushl o => (s.value o).map s.push
  | popl r => match s.stack with
    | [] => none
    | v :: rest => some { s.set r v with stack := rest }
  | movl o r => (s.value o).map (s.set r)
  | addl i r => some { s.set r (s.reg r + i) with eflags := alu.add s.eflags (s.reg r) i }
  | cmpl i r => some { s with eflags := alu.cmp s.eflags (s.reg r) i }
  | pushfl => some (s.push s.eflags)
  | popfl => match s.stack with
    | [] => none
    | v :: rest => some { s with eflags := v, stack := rest }
  | pushal esp => some { s with stack := s.all esp ++ s.stack }
  | popal => match s.stack with
    | edi :: esi :: ebp :: _ :: ebx :: edx :: ecx :: eax :: rest =>
      let s := (((s.set .edi edi).set .esi esi).set .ebp ebp).set .ebx ebx
      some { ((s.set .edx edx).set .ecx ecx).set .eax eax with stack := rest }
    | _ => none
  | cli => some { s with eflags := s.eflags &&& ~~~0x200 }
  | sti => some { s with eflags := s.eflags ||| 0x200 }

def block (is : List Instr) (s : Cpu W) : Option (Cpu W) := is.foldlM (Instr.exec alu) s

variable (callee : Sys → Cpu W → Option (Cpu W))

/-- `call *jump(,%eax,4)`, which leaves the return address `ra`, up to the function's `ret`. -/
def callJump (ra : Word) (s : Cpu W) : Option (Cpu W) :=
  jump[(s.reg .eax).toNat]?.bind fun f => callee f (s.push ra)

/-- `sys_handler` up to its `iret`. -/
def sysHandler (ra : Word) (s : Cpu W) : Option (Cpu W) :=
  (block alu [.pushfl, .cmpl 1 .eax] s).bind fun s =>
  if s.below then block alu [.popfl, .movl (.imm (-1)) .eax] s
  else (block alu [.cmpl 8 .eax] s).bind fun s =>
  if s.above then block alu [.popfl, .movl (.imm (-1)) .eax] s
  else (block alu [.addl (-1) .eax, .pushl (.reg .edx), .pushl (.reg .ecx), .pushl (.reg .ebx)] s).bind fun s =>
  (callJump callee ra s).bind fun s =>
  block alu [.popl .ebx, .popl .ecx, .popl .edx, .popfl] s

/-- Where an `int` comes from: the words of its frame but the flags. -/
structure Site where
  eip : Word
  cs : Word
  esp : Word
  ss : Word

/-- The flags behind a trap gate: TF, NT, RF and VM are clear, IF stays. -/
def gateFlags (eflags : Word) : Word := eflags &&& ~~~0x34100

/-- `int $0x80`: a frame on the kernel's stack, the handler, and `iret`, if the frame leads back. -/
def int80 (ra : Word) (site : Site) (s : Cpu W) : Option (Cpu W) :=
  (sysHandler alu callee ra { s with
    eflags := gateFlags s.eflags
    stack := [site.eip, site.cs, s.eflags, site.esp, site.ss] }).bind fun k =>
  match k.stack with
  | [eip, cs, eflags, esp, ss] =>
    if eip = site.eip ∧ cs = site.cs ∧ esp = site.esp ∧ ss = site.ss then
      some { k with eflags := eflags, stack := s.stack }
    else none
  | _ => none

/-- The body of `DO_CALL(name,number)` up to its `ret`. -/
def doCall (number ra : Word) (site : Site) (s : Cpu W) : Option (Cpu W) :=
  (block alu [.pushl (.reg .ebx), .movl (.imm number) .eax, .movl (.esp 2) .ebx, .movl (.esp 3) .ecx,
    .movl (.esp 4) .edx] s).bind fun s =>
  (int80 alu callee ra site s).bind fun s =>
  block alu [.popl .ebx] s

/-- A program's call of a wrapper, which leaves the return address `back`. -/
def callWrapper (w : Wrapper) (back ra : Word) (site : Site) (s : Cpu W) : Option (Cpu W) :=
  (doCall alu callee w.number ra site (s.push back)).bind fun s => s.ret back

end

/-- How a run from `s` ends that calls on the way: with `r` the result and the world behind it, all
else as it was but the registers that are not `kept`. -/
def Back {W : Type} (s : Cpu W) (kept : List Reg) (r : Option (Word × W)) (run : Option (Cpu W)) : Prop :=
  match r with
  | none => run = none
  | some (v, w) => ∃ s', run = some s' ∧ s'.reg .eax = v ∧ s'.world = w ∧ s'.stack = s.stack ∧ s'.eflags = s.eflags ∧
    ∀ r ∈ kept, s'.reg r = s.reg r

/-- What the compiler's convention says of the functions: each takes three words and the world, and
returns a word, if it returns. -/
structure Cdecl {W : Type} (callee : Sys → Cpu W → Option (Cpu W))
    (f : Sys → Word → Word → Word → W → Option (Word × W)) : Prop where
  gone : ∀ n s ra x y z rest, s.stack = ra :: x :: y :: z :: rest → f n x y z s.world = none → callee n s = none
  returned : ∀ n s ra x y z rest v w, s.stack = ra :: x :: y :: z :: rest → f n x y z s.world = some (v, w) →
    ∃ s', callee n s = some s' ∧ s'.reg .eax = v ∧ s'.world = w ∧ (∃ x' y' z', s'.stack = x' :: y' :: z' :: rest) ∧
      ∀ r ∈ [Reg.ebx, .esi, .edi, .ebp], s'.reg r = s.reg r

def sysOf (number : Word) : Option Sys := if number.toNat = 0 then none else jump[number.toNat - 1]?

/-- The function of a wrapper's name. -/
def Wrapper.sys : Wrapper → Option Sys
  | halt => some .halt
  | execute => some .execute
  | read => some .read
  | write => some .write
  | open_ => some .open_
  | close => some .close
  | getargs => some .getargs
  | vidmap => some .vidmap
  | set_handler => none
  | sigreturn => none

/-- What a call gives: -1, and the world as it was, where there is no function. -/
def answer {W : Type} (f : Sys → Word → Word → Word → W → Option (Word × W)) (n : Option Sys) (x y z : Word) (w : W) :
    Option (Word × W) :=
  match n with
  | none => some (-1, w)
  | some n => f n x y z w

section
variable {W : Type} {alu : Alu} {callee : Sys → Cpu W → Option (Cpu W)}
variable {f : Sys → Word → Word → Word → W → Option (Word × W)} {s : Cpu W} {ra : Word} {site : Site}

section
variable {u : Cpu W} {v : Word}

@[simp] theorem set_reg {r r' : Reg} : (u.set r v).reg r' = if r' = r then v else u.reg r' := Function.update_apply ..

@[simp] theorem set_stack {r : Reg} : (u.set r v).stack = u.stack := rfl

@[simp] theorem set_world {r : Reg} : (u.set r v).world = u.world := rfl

@[simp] theorem set_eflags {r : Reg} : (u.set r v).eflags = u.eflags := rfl

end

theorem sysOf_number (w : Wrapper) : sysOf w.number = w.sys := by
  cases w <;> rfl

theorem below_one (halu : alu.Compares) {t : Cpu W} {old : Word} (h : t.eflags = alu.cmp old (s.reg .eax) 1) :
    t.below = decide ((s.reg .eax).toNat = 0) := by
  rw [Cpu.below, h, halu.carry, decide_eq_decide]
  change (s.reg .eax).toNat < 1 ↔ _
  omega

theorem above_eight (halu : alu.Compares) {t : Cpu W} {old : Word} (h : t.eflags = alu.cmp old (s.reg .eax) 8) :
    t.above = decide (8 < (s.reg .eax).toNat) := by
  have hzero : (s.reg .eax = 8) ↔ (s.reg .eax).toNat = 8 := by
    rw [← BitVec.toNat_inj]
    exact Iff.rfl
  rw [Cpu.above, h, halu.carry, halu.zero, Bool.eq_iff_iff]
  change (!decide ((s.reg .eax).toNat < 8) && !decide (s.reg .eax = 8)) = true ↔ _
  simp only [Bool.and_eq_true, Bool.not_eq_true', decide_eq_false_iff_not, decide_eq_true_eq, hzero]
  omega

/-- A number that is not in the table: `eax` is -1 and nothing else changes. -/
theorem sysHandler_invalid (halu : alu.Compares) (hnum : sysOf (s.reg .eax) = none) :
    sysHandler alu callee ra s = some (s.set .eax (-1)) := by
  have hout : (s.reg .eax).toNat = 0 ∨ 8 < (s.reg .eax).toNat := by
    rw [sysOf] at hnum
    split at hnum
    · rename_i hzero
      exact .inl hzero
    · rw [List.getElem?_eq_none_iff] at hnum
      change 8 ≤ _ at hnum
      omega
  have hfirst : block alu [.pushfl, .cmpl 1 .eax] s =
      some { s.push s.eflags with eflags := alu.cmp s.eflags (s.reg .eax) 1 } := rfl
  rw [sysHandler, hfirst, Option.bind_some, below_one halu rfl]
  by_cases hzero : (s.reg .eax).toNat = 0
  · rw [if_pos (by simpa using hzero)]
    rfl
  · rw [if_neg (by simpa using hzero)]
    have hsecond : block alu [.cmpl 8 .eax] { s.push s.eflags with eflags := alu.cmp s.eflags (s.reg .eax) 1 } =
        some { s.push s.eflags with eflags := alu.cmp (alu.cmp s.eflags (s.reg .eax) 1) (s.reg .eax) 8 } := rfl
    rw [hsecond, Option.bind_some, above_eight halu rfl, if_pos (by simp; omega)]
    rfl

/-- A number of the table: the handler comes to the call with the arguments on the stack. -/
theorem sysHandler_calls (halu : alu.Compares) {n : Sys} (hnum : sysOf (s.reg .eax) = some n) :
    ∃ t : Cpu W, t.stack = ra :: s.reg .ebx :: s.reg .ecx :: s.reg .edx :: s.eflags :: s.stack ∧ t.world = s.world ∧
      (∀ r ∈ [Reg.esi, .edi, .ebp], t.reg r = s.reg r) ∧
      sysHandler alu callee ra s = (callee n t).bind (block alu [.popl .ebx, .popl .ecx, .popl .edx, .popfl]) := by
  rw [sysOf] at hnum
  split at hnum
  · cases hnum
  rename_i hzero
  have hle : (s.reg .eax).toNat ≤ 8 := by
    have hlt := (List.getElem?_eq_some_iff.mp hnum).1
    change _ < 8 at hlt
    omega
  have hindex : (s.reg .eax + -1).toNat = (s.reg .eax).toNat - 1 := by
    have hlt := (s.reg .eax).isLt
    have hminus : (-1 : Word).toNat = 4294967295 := rfl
    rw [BitVec.toNat_add, hminus]
    omega
  have hfirst : block alu [.pushfl, .cmpl 1 .eax] s =
      some { s.push s.eflags with eflags := alu.cmp s.eflags (s.reg .eax) 1 } := rfl
  have hsecond : block alu [.cmpl 8 .eax] { s.push s.eflags with eflags := alu.cmp s.eflags (s.reg .eax) 1 } =
      some { s.push s.eflags with eflags := alu.cmp (alu.cmp s.eflags (s.reg .eax) 1) (s.reg .eax) 8 } := rfl
  obtain ⟨t, ht, hstack, hworld, heax, hsaved⟩ : ∃ t, block alu
      [.addl (-1) .eax, .pushl (.reg .edx), .pushl (.reg .ecx), .pushl (.reg .ebx)]
      { s.push s.eflags with eflags := alu.cmp (alu.cmp s.eflags (s.reg .eax) 1) (s.reg .eax) 8 } = some t ∧
      t.stack = s.reg .ebx :: s.reg .ecx :: s.reg .edx :: s.eflags :: s.stack ∧ t.world = s.world ∧
      t.reg .eax = s.reg .eax + -1 ∧ ∀ r ∈ [Reg.esi, .edi, .ebp], t.reg r = s.reg r := by
    refine ⟨_, rfl, rfl, rfl, rfl, ?_⟩
    simp [Cpu.push, Cpu.set]
  have hjump : callJump callee ra t = callee n (t.push ra) := by
    rw [callJump, heax, hindex, hnum, Option.bind_some]
  refine ⟨t.push ra, congrArg (ra :: ·) hstack, hworld, hsaved, ?_⟩
  rw [sysHandler, hfirst, Option.bind_some, below_one halu rfl, if_neg (by simpa using hzero), hsecond,
    Option.bind_some, above_eight halu rfl, if_neg (by simpa using hle), ht, Option.bind_some, hjump]

/-- The handler gives the function of `eax` the arguments in `ebx`, `ecx` and `edx`. -/
theorem sysHandler_back (halu : alu.Compares) (hc : Cdecl callee f) :
    Back s [.esi, .edi, .ebp] (answer f (sysOf (s.reg .eax)) (s.reg .ebx) (s.reg .ecx) (s.reg .edx) s.world)
      (sysHandler alu callee ra s) := by
  cases hnum : sysOf (s.reg .eax) with
  | none =>
    rw [sysHandler_invalid halu hnum]
    exact ⟨_, rfl, by simp, rfl, rfl, rfl, by simp⟩
  | some n =>
    obtain ⟨t, hstack, hworld, hsaved, hrun⟩ := @sysHandler_calls W alu callee s ra halu n hnum
    rw [hrun, ← hworld, answer]
    cases hf : f n (s.reg .ebx) (s.reg .ecx) (s.reg .edx) t.world with
    | none =>
      rw [hc.gone n t _ _ _ _ _ hstack hf]
      exact Option.bind_none _
    | some r =>
      obtain ⟨c, hcall, heax, hw, ⟨x, y, z, hleft⟩, hkept⟩ := hc.returned n t _ _ _ _ _ r.1 r.2 hstack hf
      have hpops : block alu [.popl .ebx, .popl .ecx, .popl .edx, .popfl] c =
          some { (((c.set .ebx x).set .ecx y).set .edx z) with eflags := s.eflags, stack := s.stack } := by
        simp [block, Instr.exec, hleft, Cpu.set]
      rw [hcall, Option.bind_some, hpops]
      refine ⟨_, rfl, by simpa using heax, hw, rfl, rfl, fun r hr => ?_⟩
      rw [← hsaved r hr, ← hkept r (List.mem_cons_of_mem _ hr)]
      simp only [List.mem_cons, List.not_mem_nil, or_false] at hr
      obtain rfl | rfl | rfl := hr <;> simp

/-- The frame leads `iret` back behind the `int`, with the program's own flags. -/
theorem int80_back (halu : alu.Compares) (hc : Cdecl callee f) :
    Back s [.esi, .edi, .ebp] (answer f (sysOf (s.reg .eax)) (s.reg .ebx) (s.reg .ecx) (s.reg .edx) s.world)
      (int80 alu callee ra site s) := by
  obtain ⟨k, hk⟩ : ∃ k : Cpu W, k = { s with
    eflags := gateFlags s.eflags
    stack := [site.eip, site.cs, s.eflags, site.esp, site.ss] } := ⟨_, rfl⟩
  have hreg : k.reg = s.reg := by rw [hk]
  have hworld : k.world = s.world := by rw [hk]
  have hstack : k.stack = [site.eip, site.cs, s.eflags, site.esp, site.ss] := by rw [hk]
  have hback : Back k [.esi, .edi, .ebp]
      (answer f (sysOf (k.reg .eax)) (k.reg .ebx) (k.reg .ecx) (k.reg .edx) k.world) (sysHandler alu callee ra k) :=
    sysHandler_back halu hc
  rw [hreg, hworld] at hback
  rw [int80, ← hk]
  cases hans : answer f (sysOf (s.reg .eax)) (s.reg .ebx) (s.reg .ecx) (s.reg .edx) s.world with
  | none =>
    rw [hans] at hback
    have hnone : sysHandler alu callee ra k = none := hback
    rw [hnone]
    exact Option.bind_none _
  | some r =>
    rw [hans] at hback
    obtain ⟨k', hrun, heax, hw, hkstack, -, hsaved⟩ := hback
    rw [hrun, Option.bind_some, hkstack, hstack]
    refine ⟨_, if_pos ⟨rfl, rfl, rfl, rfl⟩, heax, hw, rfl, rfl, fun r hr => ?_⟩
    exact (hsaved r hr).trans (congrFun hreg r)

/-- A program's call of a wrapper, for any functions behind the table that follow the compiler's
convention: the function of the wrapper's name gets the program's three arguments, and the program goes
on behind the call with its result in `eax`, and with its stack, its flags and the registers it counts
on as they were. The two wrappers for signals give -1 and reach no function. -/
theorem wrapper_calls (halu : alu.Compares) (hc : Cdecl callee f) (w : Wrapper) (back x y z : Word) (rest : List Word)
    (hstack : s.stack = x :: y :: z :: rest) :
    Back s [.ebx, .esi, .edi, .ebp] (answer f w.sys x y z s.world) (callWrapper alu callee w back ra site s) := by
  obtain ⟨t, ht⟩ : ∃ t : Cpu W,
      t = ((((s.push back).push (s.reg .ebx)).set .eax w.number |>.set .ebx x).set .ecx y).set .edx z := ⟨_, rfl⟩
  have hblock : block alu [.pushl (.reg .ebx), .movl (.imm w.number) .eax, .movl (.esp 2) .ebx, .movl (.esp 3) .ecx,
      .movl (.esp 4) .edx] (s.push back) = some t := by
    rw [ht]
    simp [block, Instr.exec, Cpu.value, Cpu.push, Cpu.set, hstack]
  have hsaved : ∀ r ∈ [Reg.esi, .edi, .ebp], t.reg r = s.reg r := by
    rw [ht]
    simp [Cpu.push]
  have hback : Back t [.esi, .edi, .ebp]
      (answer f (sysOf (t.reg .eax)) (t.reg .ebx) (t.reg .ecx) (t.reg .edx) t.world) (int80 alu callee ra site t) :=
    int80_back halu hc
  have hargs : t.reg .eax = w.number ∧ t.reg .ebx = x ∧ t.reg .ecx = y ∧ t.reg .edx = z ∧ t.world = s.world := by
    rw [ht]
    simp [Cpu.push]
  obtain ⟨heax, hebx, hecx, hedx, hworld⟩ := hargs
  rw [heax, hebx, hecx, hedx, hworld, sysOf_number] at hback
  rw [callWrapper, doCall, hblock, Option.bind_some]
  cases hans : answer f w.sys x y z s.world with
  | none =>
    rw [hans] at hback
    have hnone : int80 alu callee ra site t = none := hback
    rw [hnone]
    rfl
  | some r =>
    rw [hans] at hback
    obtain ⟨u, hu, hres, hw, hustack, huflags, husaved⟩ := hback
    have hpop : block alu [.popl .ebx] u = some { u.set .ebx (s.reg .ebx) with stack := back :: s.stack } := by
      rw [ht] at hustack
      simp [block, Instr.exec, hustack, Cpu.push]
    rw [hu, Option.bind_some, hpop, Option.bind_some]
    refine ⟨_, if_pos rfl, by simpa using hres, hw, rfl, huflags.trans (by rw [ht]; rfl), fun r hr => ?_⟩
    by_cases hebx : r = .ebx
    · simp [hebx]
    · have hr' : r ∈ [Reg.esi, .edi, .ebp] := by simpa [hebx] using hr
      simpa [hebx] using (husaved r hr').trans (hsaved r hr')

end

/-- CF and ZF as the processor has them; the other flags are clear. -/
def carryZero : Alu where
  add old _ _ := old
  cmp _ y x := if y.toNat < x.toNat then 1 else if y = x then 0x40 else 0

theorem carryZero_compares : carryZero.Compares where
  carry old y x := by
    simp only [carryZero]
    split
    · simp [*]
    · split <;> simp [*]
  zero old y x := by
    simp only [carryZero]
    split
    · have hne : y ≠ x := fun h => by subst h; omega
      simp [hne]
    · split <;> simp [*]

/-- Functions that count their calls and give the sum of their arguments, except `halt`, which does not
come back; the flags, `edx` and the words of the arguments are lost. -/
def sums (n : Sys) (s : Cpu Nat) : Option (Cpu Nat) :=
  if n = .halt then none
  else match s.stack with
  | _ :: x :: y :: z :: rest =>
    some { (s.set .eax (x + y + z)).set .edx 0 with eflags := 0, stack := 0 :: 0 :: 0 :: rest, world := s.world + 1 }
  | _ => none

theorem sums_cdecl :
    Cdecl sums fun n x y z w => if n = .halt then none else some (x + y + z, w + 1) where
  gone n s ra x y z rest hstack hf := by
    have hn : n = .halt := by simpa using hf
    exact if_pos hn
  returned n s ra x y z rest v w hstack hf := by
    have hn : n ≠ .halt := fun h => by simp [h] at hf
    rw [if_neg hn, Option.some.injEq, Prod.mk.injEq] at hf
    obtain ⟨rfl, rfl⟩ := hf
    have hrun : sums n s = some { (s.set .eax (x + y + z)).set .edx 0 with
        eflags := 0, stack := 0 :: 0 :: 0 :: rest, world := s.world + 1 } := by
      rw [sums, if_neg hn, hstack]
    exact ⟨_, hrun, by simp, rfl, ⟨0, 0, 0, rfl⟩, by simp⟩

/-- `ece391_read(3, 4, 5)` with the carry flag set, on a machine that has served no call. -/
theorem wrapper_calls_read :
    Back ⟨fun _ => 7, 1, [3, 4, 5], 0⟩ [.ebx, .esi, .edi, .ebp] (some (12, 1))
      (callWrapper carryZero sums .read 0x8048100 0x401200 ⟨0x80481F0, 0x23, 0x83FFF00, 0x2B⟩
        ⟨fun _ => 7, 1, [3, 4, 5], 0⟩) :=
  wrapper_calls carryZero_compares sums_cdecl .read 0x8048100 3 4 5 [] rfl

end Flipit.Gate
