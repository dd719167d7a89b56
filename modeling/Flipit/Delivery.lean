import Flipit.Scheduler

/- Where the calls store what they deliver.

   `read`, `getargs` and `vidmap` store at an address of their caller's. The kernel runs
   with its own page mapped and writable, and only `vidmap` looks at the address: a
   buffer of `read` or `getargs` can lie over the kernel's data (`Kernel.stepStored`).
   What lies in the page of the caller, as programs have it, is `Delivers`.

   The process control blocks are in that page, each with its descriptor table first. Of
   the stores there the machine follows those over the first two entries of a slot,
   stdin and stdout, which no call reads back in the middle: the bytes of an entry are
   read as its fields again, a word of `f_op` as the table the linker has put there.
   A run in which other data of the kernel's page is overwritten is not followed.

   Correspondence:
     `pcb_t` at 8MB - (pid + 1) * 8KB   ↔ `pcbAddr`
     `file_t` (four words)              ↔ `FileT.bytes`, `FileT.ofBytes` -/
namespace Flipit
open Machine Bytes

/-- Where the event's call stores what it delivers. -/
def Event.buffer : Event → Option Nat
  | .read _ buf _ => some buf
  | .getargs buf _ => some buf
  | .vidmap screenStart => some screenStart
  | _ => none

/-! ## The first two descriptors as bytes -/

/-- The addresses of the jump tables. -/
abbrev Linked := OpTable → Nat

/-- Some addresses in the kernel's image. -/
def smallLinked : Linked
  | .stdin => 0x410000
  | .stdout => 0x410010
  | .rtc => 0x410020
  | .file => 0x410030
  | .dir => 0x410040

def wordBytes (n : Nat) : List UInt8 := (List.range 4).map fun j => UInt8.ofNat (n / 2 ^ (8 * j))

/-- The table at an address, `none` for `NULL`; other addresses are not followed. -/
def tableAt (linked : Linked) (n : Nat) : Option (Option OpTable) :=
  if n = 0 then some none
  else ([OpTable.stdin, .stdout, .rtc, .file, .dir].find? fun op => linked op == n).map some

def FileT.bytes (linked : Linked) (f : FileT) : List UInt8 :=
  wordBytes ((f.fOp.map linked).getD 0) ++ wordBytes f.inode ++ wordBytes f.fOffset ++ wordBytes f.active

def FileT.ofBytes (linked : Linked) (m : Memory) (a : Nat) : Option FileT :=
  (tableAt linked (word m a)).map fun op => ⟨op, word m (a + 4), word m (a + 8), word m (a + 12)⟩

def pcbAddr (q : Fin 8) : Nat := 0x800000 - (q.val + 1) * 0x2000

/-- Bytes stored from byte `i` of the descriptor table of slot `q` on, in its first two entries. -/
def Proc.overwrite (linked : Linked) (s : Proc) (q : Fin 8) (i : Nat) (bytes : List UInt8) : Option Proc :=
  let fds := (s.pcb q).fileDescriptorTable
  let m := overlay (cstr ((fds 0).bytes linked ++ (fds 1).bytes linked)) i bytes
  (FileT.ofBytes linked m 0).bind fun stdin => (FileT.ofBytes linked m 16).map fun stdout =>
    { s with pcb := Function.update s.pcb q { s.pcb q with
        fileDescriptorTable := Function.update (Function.update fds 0 stdin) 1 stdout } }

/-! ## A step with its stores -/

namespace Kernel

/-- The kernel's stores of `bytes` from the virtual address `v` on. -/
def deliver (k : Kernel) (v : Nat) : List UInt8 → Option Kernel
  | [] => some k
  | b :: bytes => (k.paging.store k.mem v b).bind fun m => { k with mem := m }.deliver (v + 1) bytes

/-- What the same stores do to the data in the kernel's page. -/
def overPage (linked : Linked) (k : Kernel) (v : Nat) (bytes : List UInt8) : Option Kernel :=
  if bytes = [] ∨ v + bytes.length ≤ 0x400000 ∨ 0x800000 ≤ v then some k
  else
    ((List.finRange 8).find? fun q => decide (pcbAddr q ≤ v ∧ v + bytes.length ≤ pcbAddr q + 32)).bind fun q =>
      (k.proc.overwrite linked q (v - pcbAddr q) bytes).map fun s => { k with proc := s }

/-- A step, with what it delivers stored. -/
def stepStored (linked : Linked) (fs : Fs) (k : Kernel) (e : Event) : Option (Outcome × Kernel) :=
  (k.step fs e).bind fun r =>
    match r.1, e.buffer with
    | .returned _ data, some v =>
      ((r.2.deliver v data).bind fun k => k.overPage linked v data).map fun k => (r.1, k)
    | _, _ => some r

/-- What was answered fits into the caller's page from the address `v` on. -/
def Inside (v : Nat) : Outcome → Prop
  | .returned _ data => data = [] ∨ 0x08000000 ≤ v ∧ v + data.length ≤ 0x08400000
  | _ => True

/-- The call delivers into the caller's page. -/
def Delivers (fs : Fs) (k : Kernel) (e : Event) : Prop :=
  ∀ v, e.buffer = some v → ∀ r, k.step fs e = some r → Inside v r.1

instance (v : Nat) : (o : Outcome) → Decidable (Inside v o)
  | .returned _ _ => inferInstanceAs (Decidable (_ ∨ _))
  | .entered _ | .resumed _ _ _ | .switched _ _ => .isTrue trivial

instance (fs : Fs) (k : Kernel) (e : Event) : Decidable (k.Delivers fs e) :=
  inferInstanceAs (Decidable (∀ v, e.buffer = some v → ∀ r, k.step fs e = some r → Inside v r.1))

variable {linked : Linked} {fs : Fs} {k k' : Kernel} {e : Event} {o : Outcome} {v : Nat} {bytes : List UInt8}

theorem deliver_frame (h : k.deliver v bytes = some k') : ∃ m, k' = { k with mem := m } := by
  induction bytes generalizing k v with
  | nil => exact ⟨k.mem, (Option.some.inj h).symm⟩
  | cons b bytes ih =>
    obtain ⟨m, -, hrest⟩ := Option.bind_eq_some_iff.mp h
    obtain ⟨m', hm⟩ := ih hrest
    exact ⟨m', hm⟩

theorem overPage_inside {ret : Int} (h : Inside v (.returned ret bytes)) : k.overPage linked v bytes = some k := by
  apply if_pos
  rcases h with hnil | ⟨hl, -⟩
  · exact .inl hnil
  · exact .inr (.inr (by omega))

theorem stepStored_spec (hd : k.Delivers fs e) (hs : k.stepStored linked fs e = some (o, k')) :
    ∃ k1 m, k.step fs e = some (o, k1) ∧ k' = { k1 with mem := m } := by
  obtain ⟨⟨o1, k1⟩, hstep, hs⟩ := Option.bind_eq_some_iff.mp hs
  have hplain : some (o1, k1) = some (o, k') → ∃ k1 m, k.step fs e = some (o, k1) ∧ k' = { k1 with mem := m } := by
    intro h
    obtain ⟨rfl, rfl⟩ := Prod.mk.inj (Option.some.inj h)
    exact ⟨k1, k1.mem, hstep, rfl⟩
  cases hbuf : e.buffer with
  | none =>
    rw [hbuf] at hs
    cases o1 <;> exact hplain hs
  | some v =>
    rw [hbuf] at hs
    cases o1 with
    | returned ret data =>
      obtain ⟨k2, h2, hr⟩ := Option.map_eq_some_iff.mp hs
      obtain ⟨rfl, rfl⟩ := Prod.mk.inj hr
      obtain ⟨k3, h3, hover⟩ := Option.bind_eq_some_iff.mp h2
      obtain ⟨m, rfl⟩ := deliver_frame h3
      rw [overPage_inside (hd v hbuf _ hstep)] at hover
      obtain rfl := Option.some.inj hover
      exact ⟨k1, m, hstep, rfl⟩
    | entered | resumed | switched => exact hplain hs

end Kernel

end Flipit
