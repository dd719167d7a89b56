import Flipit.JumpTables
import Flipit.ReadData

/- Reading an open file, call by call.

   `regular_file_read` keeps its place in `f_offset`, which every other call leaves
   alone: a call changes at most the descriptor it names, and `open` an inactive one.
   So the reads of one descriptor go on from each other whatever is done with the
   others (`calls_trace`, for files and for directories), and each returns what is left
   of the file up to the size asked for (`readCalls_trace`). Which bytes it delivers is
   the business of `read_data`: the file's, exactly if no read of less than a block runs
   over the end of a block whose successor in memory holds other bytes
   (`file_reads_iff`). -/
namespace Flipit
open Machine Bytes

/-- Descriptor `fd` of the running process `a` is the regular file `inode`, read up to
`offset`. -/
structure Reading (k : Kernel) (a fd : Fin 8) (inode offset : Nat) : Prop where
  active : k.active = some a
  entry : (k.proc.pcb a).fileDescriptorTable fd = ⟨some .file, inode, offset, 1⟩

/-- A read of `fd` into a buffer, or an operation on the other descriptors. -/
def ReadCall (fd : Fin 8) : Event → Prop
  | .read g buf n => (g = fd.val → buf ≠ 0 ∧ 0 ≤ n ∧ n < 2 ^ 31)
  | .write g _ _ => g ≠ fd.val
  | .close g => g ≠ fd.val
  | .openFile _ _ => True
  | _ => False

/-- The size of a read of `fd`. -/
def sizeOf? (fd : Fin 8) : Event → Option Nat
  | .read g _ n => if g = fd.val then some n.toNat else none
  | _ => none

/-- The sizes asked for in the reads of `fd`, in order. -/
def sizes (fd : Fin 8) (es : List Event) : List Nat := es.filterMap (sizeOf? fd)

/-- The answers to the reads of `fd`: value and bytes, in order. -/
def answers (fd : Fin 8) : List Event → List Outcome → List (Int × List UInt8)
  | e :: es, .returned v data :: outs =>
    if (sizeOf? fd e).isSome then (v, data) :: answers fd es outs else answers fd es outs
  | _ :: es, _ :: outs => answers fd es outs
  | _, _ => []

/-- What reads of these sizes return from `offset` on, of a file of `length` bytes. -/
def returns (length : Nat) : Nat → List Nat → List Nat
  | _, [] => []
  | offset, n :: ns =>
    min n (length - offset) :: returns length (offset + min n (length - offset)) ns

/-- Each of these reads that is shorter than a block and crosses the end of one finds the
file's next bytes behind it. -/
def AllWhole (fs : Fs) (inode : Nat) : Nat → List Nat → Prop
  | _, [] => True
  | offset, n :: ns =>
    fs.Whole inode offset (min n (fs.lengthInB inode - offset)) ∧
      AllWhole fs inode (offset + min n (fs.lengthInB inode - offset)) ns

/-! ## One call -/

variable {fs : Fs} {k k' : Kernel} {a fd : Fin 8} {inode offset : Nat} {o : Outcome} {e : Event}

/-- Descriptor `fd` of the running process `a` is open and holds `f`. -/
structure Opened (k : Kernel) (a fd : Fin 8) (f : FileT) : Prop where
  active : k.active = some a
  entry : (k.proc.pcb a).fileDescriptorTable fd = f
  opened : f.active = 1

theorem Opened.read {f : FileT} (h : Opened k a fd f) (hfd : 2 ≤ fd.val) {buf : Nat} {n : Int}
    (hbuf : buf ≠ 0) (h0 : 0 ≤ n) :
    k.step fs (.read fd.val buf n) = Kernel.readFunc fs k a fd buf n := by
  have hindex : Kernel.fdIndex (fd.val : Int) = fd := by
    apply Fin.ext
    have hval : ((Kernel.fdIndex (fd.val : Int)).val : Int) = fd.val := Kernel.fdIndex_val (by omega)
    omega
  have hr : k.step fs (.read fd.val buf n) = Kernel.read fs fd.val buf n k := by
    simp only [Kernel.step, Kernel.call, h.active, Option.isSome_some, if_true]
  rw [hr, Kernel.read, if_neg (by omega), h.active, Option.bind_some, hindex, h.entry]
  rw [if_neg (by simp [h.opened]), if_neg (by omega)]

theorem Reading.opened (h : Reading k a fd inode offset) :
    Opened k a fd ⟨some .file, inode, offset, 1⟩ := ⟨h.active, h.entry, rfl⟩

theorem Reading.read (h : Reading k a fd inode offset) (hfd : 2 ≤ fd.val) (ho : fs.FileOk inode)
    (hoff : offset ≤ fs.lengthInB inode) {buf : Nat} {n : Int} (hbuf : buf ≠ 0) (h0 : 0 ≤ n)
    (hn : n < 2 ^ 31) :
    let count := min n.toNat (fs.lengthInB inode - offset)
    ∃ k', k.step fs (.read fd.val buf n) =
        some (.returned count (fs.delivered inode offset count), k') ∧
      Reading k' a fd inode (offset + count) := by
  intro count
  have hlen := ho.length_le
  have hcount : count ≤ fs.lengthInB inode - offset := Nat.min_le_right ..
  have hdata : readData fs inode offset buf n.toNat = ((count : Int), fs.delivered inode offset count) :=
    readData_eq ho.inode_lt hlen hbuf (by omega)
  rw [h.opened.read hfd hbuf h0, Kernel.readFunc, h.entry]
  dsimp only
  rw [Kernel.regularFileRead, if_neg hbuf]
  simp only [h.entry, hdata]
  refine ⟨_, rfl, h.active, ?_⟩
  simp only [Proc.onFd, h.entry, Function.update_self]
  have hw : (((offset : Int) + count) % 2 ^ 32).toNat = offset + count := by omega
  rw [hw]

theorem ReadCall.quiet (he : ReadCall fd e) (hs : k.step fs e = some (o, k')) :
    Kernel.Quiet e k o k' := by
  cases Kernel.step_cases hs with
  | quiet _ hq => exact hq
  | child => exact he.elim
  | release => exact he.elim
  | restart => exact he.elim
  | first => exact he.elim
  | switch => exact he.elim

theorem Opened.other {f : FileT} (h : Opened k a fd f) (he : ReadCall fd e) (hown : sizeOf? fd e = none)
    (hs : k.step fs e = some (o, k')) : Opened k' a fd f := by
  have hq := he.quiet hs
  have hact : k'.proc.active k'.terminalNum = k.proc.active k.terminalNum := by
    rcases hq.table with hp | ⟨b, g, f, hd⟩
    · rw [hp, hq.terminalNum]
    · rw [hd.proc, hq.terminalNum]; rfl
  refine ⟨hact.trans h.active, ?_, h.opened⟩
  rcases hq.table with hp | ⟨b, g, f', hd⟩
  · rw [hp]; exact h.entry
  · obtain rfl : a = b := Option.some.inj (h.active.symm.trans hd.active)
    have hne : fd ≠ g := by
      intro he'
      subst he'
      have htarget := hd.target
      cases e with
      | read g' buf n => simp [sizeOf?, show g' = (fd.val : Int) from htarget.symm] at hown
      | close g' => exact he htarget.symm
      | openFile filename past =>
        -- `open` takes an inactive entry
        have h1 : ((k.proc.pcb a).fileDescriptorTable fd).active = 0 := htarget
        rw [h.entry, h.opened] at h1
        cases h1
      | _ => exact htarget.elim
    rw [hd.proc]
    simp [Proc.onFd, Function.update_of_ne hne, h.entry]

theorem Reading.other (h : Reading k a fd inode offset) (he : ReadCall fd e) (hown : sizeOf? fd e = none)
    (hs : k.step fs e = some (o, k')) : Reading k' a fd inode offset := by
  obtain ⟨hact, hentry, -⟩ := h.opened.other he hown hs
  exact ⟨hact, hentry⟩

theorem ReadCall.size (he : ReadCall fd e) {n : Nat} (h : sizeOf? fd e = some n) :
    ∃ buf m, e = .read fd.val buf m ∧ n = m.toNat ∧ buf ≠ 0 ∧ 0 ≤ m ∧ m < 2 ^ 31 := by
  cases e with
  | read g buf m =>
    simp only [sizeOf?] at h
    split at h
    · rename_i hg
      exact ⟨buf, m, by rw [hg], (Option.some.inj h).symm, he hg⟩
    · cases h
  | _ => cases h

/-! ## A run of calls -/

theorem returns_sum_le (length offset : Nat) (ns : List Nat) (h : offset ≤ length) :
    offset + (returns length offset ns).sum ≤ length := by
  induction ns generalizing offset with
  | nil => simpa [returns] using h
  | cons n ns ih =>
    have := ih (offset + min n (length - offset)) (by omega)
    simp only [returns, List.sum_cons]
    omega

/-- The answers to reads of these sizes one after the other, each from where the last one has
stopped. -/
def scan {σ β : Type} (answer : σ → Nat → β) (next : σ → Nat → σ) : σ → List Nat → List β
  | _, [] => []
  | x, n :: ns => answer x n :: scan answer next (next x n) ns

/-- Reads of one descriptor go on from each other, whatever is done with the others in
between. -/
theorem calls_trace {σ : Type} {I : Kernel → σ → Prop} {answer : σ → Nat → Int × List UInt8}
    {next : σ → Nat → σ} {x : σ} {es : List Event} {outs : List Outcome}
    (hother : ∀ {k k' x e o}, I k x → ReadCall fd e → sizeOf? fd e = none →
      k.step fs e = some (o, k') → I k' x)
    (hread : ∀ {k x buf m}, I k x → buf ≠ 0 → 0 ≤ m → m < 2 ^ 31 →
      ∃ k', k.step fs (.read fd.val buf m) =
          some (.returned (answer x m.toNat).1 (answer x m.toNat).2, k') ∧ I k' (next x m.toNat))
    (hes : ∀ e ∈ es, ReadCall fd e) (h : I k x) (ht : trace (Kernel.step fs) k es = some (outs, k')) :
    I k' ((sizes fd es).foldl next x) ∧ answers fd es outs = scan answer next x (sizes fd es) := by
  -- on the calls: `x` is where the reads so far have stopped
  induction es generalizing k x outs with
  | nil =>
    simp only [trace, Option.some.injEq, Prod.mk.injEq] at ht
    obtain ⟨rfl, rfl⟩ := ht
    exact ⟨h, rfl⟩
  | cons e es ih =>
    obtain ⟨⟨o, k1⟩, outs', hs, ht', rfl⟩ := trace_cons.mp ht
    have hes' : ∀ e ∈ es, ReadCall fd e := fun e he => hes e (.tail _ he)
    have hcall := hes e (.head _)
    obtain ⟨v, data, rfl⟩ := (hcall.quiet hs).returned
    cases hsize : sizeOf? fd e with
    | none =>
      have hrest := ih hes' (hother h hcall hsize hs) ht'
      simpa [sizes, hsize, answers] using hrest
    | some n =>
      obtain ⟨buf, m, rfl, rfl, hbuf, h0, hm⟩ := hcall.size hsize
      obtain ⟨k2, hs2, hnext⟩ := hread h hbuf h0 hm
      obtain ⟨ho, rfl⟩ := Prod.mk.inj (Option.some.inj (hs.symm.trans hs2))
      obtain ⟨rfl, rfl⟩ := Outcome.returned.inj ho
      have hrest := ih hes' hnext ht'
      simpa [sizes, hsize, answers, scan] using hrest

/-- What one read of the file answers, and where it stops. -/
def Fs.answered (fs : Fs) (inode offset n : Nat) : Int × List UInt8 :=
  ((min n (fs.lengthInB inode - offset) : Nat), fs.delivered inode offset (min n (fs.lengthInB inode - offset)))

def Fs.advanced (fs : Fs) (inode offset n : Nat) : Nat := offset + min n (fs.lengthInB inode - offset)

theorem advanced_foldl (fs : Fs) (inode offset : Nat) (ns : List Nat) :
    ns.foldl (fs.advanced inode) offset = offset + (returns (fs.lengthInB inode) offset ns).sum := by
  induction ns generalizing offset with
  | nil => rfl
  | cons n ns ih =>
    rw [List.foldl_cons, ih, returns, List.sum_cons, ← Nat.add_assoc]
    rfl

theorem answered_values (fs : Fs) (inode offset : Nat) (ns : List Nat) :
    (scan (fs.answered inode) (fs.advanced inode) offset ns).map (·.1) =
      (returns (fs.lengthInB inode) offset ns).map Int.ofNat := by
  induction ns generalizing offset with
  | nil => rfl
  | cons n ns ih =>
    rw [scan, List.map_cons, ih, returns, List.map_cons]
    rfl

theorem answered_bytes (fs : Fs) (inode offset : Nat) (ns : List Nat) :
    (scan (fs.answered inode) (fs.advanced inode) offset ns).flatMap (·.2) =
        fs.fileBytes inode offset (returns (fs.lengthInB inode) offset ns).sum ↔
      AllWhole fs inode offset ns := by
  induction ns generalizing offset with
  | nil => simp [scan, returns, AllWhole, Fs.fileBytes]
  | cons n ns ih =>
    rw [scan, List.flatMap_cons, returns, List.sum_cons, AllWhole, ← ih, ← delivered_eq_iff, fileBytes_add]
    constructor
    · intro heq
      exact List.append_inj heq (by simp)
    · intro hparts
      obtain ⟨h1, h2⟩ := hparts
      rw [← h1]
      exact congrArg _ h2

theorem readCalls_trace (hfd : 2 ≤ fd.val) (ho : fs.FileOk inode) {es : List Event}
    (hes : ∀ e ∈ es, ReadCall fd e) {outs : List Outcome}
    (h : Reading k a fd inode offset) (hoff : offset ≤ fs.lengthInB inode)
    (ht : trace (Kernel.step fs) k es = some (outs, k')) :
    Reading k' a fd inode (offset + (returns (fs.lengthInB inode) offset (sizes fd es)).sum) ∧
    answers fd es outs = scan (fs.answered inode) (fs.advanced inode) offset (sizes fd es) := by
  have hscan : (Reading k' a fd inode ((sizes fd es).foldl (fs.advanced inode) offset) ∧
      (sizes fd es).foldl (fs.advanced inode) offset ≤ fs.lengthInB inode) ∧
      answers fd es outs = scan (fs.answered inode) (fs.advanced inode) offset (sizes fd es) := by
    apply calls_trace (I := fun k x => Reading k a fd inode x ∧ x ≤ fs.lengthInB inode) _ _ hes ⟨h, hoff⟩ ht
    · intro k k' x e o h hcall hsize hs
      exact ⟨h.1.other hcall hsize hs, h.2⟩
    · intro k x buf m h hbuf h0 hm
      obtain ⟨k2, hs, hreading⟩ := h.1.read hfd ho h.2 hbuf h0 hm
      refine ⟨k2, hs, hreading, ?_⟩
      have hle := h.2
      rw [Fs.advanced]
      omega
  rw [advanced_foldl] at hscan
  exact ⟨hscan.1.1, hscan.2⟩

/-! ## An opened file -/

/-- An `open` that returns a descriptor has found it inactive, and leaves an entry of the
directory behind it. -/
theorem openFile_opened {name : Option (List UInt8)} {past : Bool}
    (hs : k.step fs (.openFile name past) = some (.returned fd.val [], k')) :
    ∃ a f, k.active = some a ∧ ((k.proc.pcb a).fileDescriptorTable fd).active = 0 ∧
      Opened k' a fd f ∧ Kernel.NewEntry fs f := by
  obtain ⟨hm, -, ⟨ho, -⟩ | ⟨a, g, f, ha, hfree, hnew, ho, hp⟩⟩ :=
    Kernel.openFile_cases (Kernel.call_eq_some hs).2
  · have := (Outcome.returned.inj ho).1
    omega
  · obtain rfl : fd = g := by
      have := (Outcome.returned.inj ho).1
      exact Fin.ext (by omega)
    have hterm : k'.terminalNum = k.terminalNum := congrArg Mmu.terminalNum hm
    refine ⟨a, f, ha, hfree, ⟨?_, ?_, hnew.active⟩, hnew⟩
    · rw [Kernel.active, hp, hterm]
      exact ha
    · simp [hp, Proc.onFd]

theorem openFile_regular {name : Option (List UInt8)} {past : Bool} (hwf : fs.WellFormed)
    (hs : k.step fs (.openFile name past) = some (.returned fd.val [], k')) (ha : k'.active = some a)
    (hfile : ((k'.proc.pcb a).fileDescriptorTable fd).fOp = some .file) :
    k.active = some a ∧ ((k.proc.pcb a).fileDescriptorTable fd).active = 0 ∧
    fs.FileOk ((k'.proc.pcb a).fileDescriptorTable fd).inode ∧
    Reading k' a fd ((k'.proc.pcb a).fileDescriptorTable fd).inode 0 := by
  obtain ⟨b, f, hb, hfree, hf, hnew⟩ := openFile_opened hs
  obtain rfl : b = a := Option.some.inj (hf.active.symm.trans ha)
  rw [hf.entry] at hfile ⊢
  rcases hnew.table with hop | ⟨hop, -⟩ | ⟨-, i, hi, h2, hinode⟩
  · rw [hop] at hfile; cases hfile
  · rw [hop] at hfile; cases hfile
  · refine ⟨hb, hfree, hinode ▸ hwf.files i hi h2, ha, ?_⟩
    obtain ⟨op, inode, offset, active⟩ := f
    obtain ⟨rfl, rfl⟩ : op = some .file ∧ offset = 0 := ⟨hfile, hnew.offset⟩
    rw [hf.entry, show active = 1 from hf.opened]

/-- After any run, `open` a regular file and then call `read` on it any number of times,
with whatever sizes and whatever other descriptors are used in between. The reads return
what is left of the file up to the size asked for, and the bytes they deliver are the
file's, in order, exactly if each of them that copies less than a block and crosses the
end of one finds the file's next block behind it in memory. -/
theorem file_reads_iff {q : Paging} {mem : Memory} {es0 es : List Event} {k0 k1 : Kernel}
    {name : Option (List UInt8)} {past : Bool} {outs : List Outcome} (hwf : fs.WellFormed)
    (hrun : run (Kernel.step fs) (Kernel.boot q mem) es0 = some k0)
    (hopen : k0.step fs (.openFile name past) = some (.returned fd.val [], k1))
    (hact : k1.active = some a) (hfile : ((k1.proc.pcb a).fileDescriptorTable fd).fOp = some .file)
    (hes : ∀ e ∈ es, ReadCall fd e) (ht : trace (Kernel.step fs) k1 es = some (outs, k)) :
    let inode := ((k1.proc.pcb a).fileDescriptorTable fd).inode
    let rets := returns (fs.lengthInB inode) 0 (sizes fd es)
    (∀ buf n, buf ≠ 0 → 0 ≤ n → n < 2 ^ 31 → (k.step fs (.read fd.val buf n)).isSome) ∧
    (((answers fd es outs).map (·.1) = rets.map Int.ofNat ∧
      (answers fd es outs).flatMap (·.2) = fs.fileBytes inode 0 rets.sum) ↔
      AllWhole fs inode 0 (sizes fd es)) := by
  intro inode rets
  obtain ⟨ha, hfree, hok, hreading⟩ := openFile_regular hwf hopen hact hfile
  have hfd := ((sound_run hrun).active _ _ ha).ge_two hfree
  obtain ⟨hlast, hanswers⟩ := readCalls_trace hfd hok hes hreading (Nat.zero_le _) ht
  refine ⟨?_, ?_⟩
  · intro buf n hbuf h0 hn
    have hle := returns_sum_le (fs.lengthInB inode) 0 (sizes fd es) (Nat.zero_le _)
    obtain ⟨k', hs, -⟩ := hlast.read hfd hok hle hbuf h0 hn
    rw [hs]; rfl
  · rw [hanswers, ← answered_bytes]
    exact and_iff_right (answered_values fs inode 0 (sizes fd es))

theorem smallFs_wellFormed : smallFs.WellFormed where
  files := by
    have h : ∀ i, i < 63 → (smallFs.dentry i).fileType = 2 →
        (smallFs.dentry i).inode < smallFs.inodeCount ∧
        smallFs.lengthInB (smallFs.dentry i).inode ≤ 1023 * 4096 ∧
        ∀ j, j < (smallFs.lengthInB (smallFs.dentry i).inode + 4095) / 4096 →
          smallFs.dataBlockNumber (smallFs.dentry i).inode j < smallFs.dataBlockCount := by
      decide +kernel
    intro i hi h2
    exact ⟨(h i hi h2).1, (h i hi h2).2.1, (h i hi h2).2.2⟩

/-- The first shell opens `data`. -/
def openData : List Event := [.tick 0 0 zeroEnv, .openFile (some (ascii "data")) true]

/-- Two reads of it, with another `open` between them. -/
def readTwice (n m : Int) : List Event :=
  [.read 2 localBuf n, .openFile (some (ascii "shell")) true, .read 2 localBuf m]

/-- A read up to the end of the first block and one from there: the file, although its
blocks are not adjacent. -/
theorem file_reads_iff_blocks :
    ∃ k1 outs k, run (Kernel.step smallFs) (Kernel.boot linkedPaging fun _ => 0) openData = some k1 ∧
      trace (Kernel.step smallFs) k1 (readTwice 4096 100) = some (outs, k) ∧
      (answers 2 (readTwice 4096 100) outs).map (·.1) = [4096, 4] ∧
      (answers 2 (readTwice 4096 100) outs).flatMap (·.2) = smallFs.fileBytes 1 0 4100 := by
  have hrun : ((run (Kernel.step smallFs) (Kernel.boot linkedPaging fun _ => 0)
      [.tick 0 0 zeroEnv]).bind fun k0 =>
        (k0.step smallFs (.openFile (some (ascii "data")) true)).bind fun r =>
          (trace (Kernel.step smallFs) r.2 (readTwice 4096 100)).map fun _ =>
            (r.1, r.2.active, (r.2.proc.pcb 0).fileDescriptorTable 2)) =
      some (.returned 2 [], some 0, ⟨some .file, 1, 0, 1⟩) := by decide +kernel
  obtain ⟨k0, h0, hrun⟩ := Option.bind_eq_some_iff.mp hrun
  obtain ⟨⟨o, k1⟩, h1, hrun⟩ := Option.bind_eq_some_iff.mp hrun
  obtain ⟨⟨outs, k⟩, ht, hq⟩ := Option.map_eq_some_iff.mp hrun
  simp only [Prod.mk.injEq] at hq
  obtain ⟨rfl, ha, hfd⟩ := hq
  have hlen : smallFs.lengthInB 1 = 4100 := by decide +kernel
  have hcalls : ∀ e ∈ readTwice 4096 100, ReadCall 2 e := by
    simp [readTwice, ReadCall, localBuf]
  have hsizes : sizes 2 (readTwice 4096 100) = [4096, 100] := by decide
  have h := (file_reads_iff smallFs_wellFormed h0 h1 ha (by rw [hfd]) hcalls ht).2
  rw [hfd, hsizes, hlen] at h
  obtain ⟨hrets, hbytes⟩ := h.mpr (by simp [AllWhole, Fs.Whole, hlen])
  have hboth : run (Kernel.step smallFs) (Kernel.boot linkedPaging fun _ => 0) openData = some k1 := by
    rw [openData, ← List.singleton_append, run_append, h0]
    simp [run, h1]
  exact ⟨k1, outs, k, hboth, ht, hrets, hbytes⟩

/-- A read of two bytes across the end of the first block delivers a byte of the program
that lies behind it. -/
theorem file_reads_cross :
    smallFs.WellFormed ∧ ∃ k1 outs k,
      run (Kernel.step smallFs) (Kernel.boot linkedPaging fun _ => 0) openData = some k1 ∧
      k1.active = some 0 ∧ (k1.proc.pcb 0).fileDescriptorTable 2 = ⟨some .file, 1, 0, 1⟩ ∧
      trace (Kernel.step smallFs) k1 (readTwice 4095 2) = some (outs, k) ∧
      (answers 2 (readTwice 4095 2) outs).map (·.1) = [4095, 2] ∧
      (answers 2 (readTwice 4095 2) outs).flatMap (·.2) ≠ smallFs.fileBytes 1 0 4097 := by
  have hrun : ((run (Kernel.step smallFs) (Kernel.boot linkedPaging fun _ => 0) openData).bind fun k1 =>
      (trace (Kernel.step smallFs) k1 (readTwice 4095 2)).map fun r =>
        (k1.active, (k1.proc.pcb 0).fileDescriptorTable 2,
          (answers 2 (readTwice 4095 2) r.1).map (·.1),
          ((answers 2 (readTwice 4095 2) r.1).flatMap (·.2)).getLast?)) =
      some (some 0, ⟨some .file, 1, 0, 1⟩, [4095, 2], some 0x7f) := by decide +kernel
  obtain ⟨k1, h1, hrun⟩ := Option.bind_eq_some_iff.mp hrun
  obtain ⟨⟨outs, k⟩, ht, hq⟩ := Option.map_eq_some_iff.mp hrun
  simp only [Prod.mk.injEq] at hq
  obtain ⟨ha, hfd, hrets, hlast⟩ := hq
  refine ⟨smallFs_wellFormed, k1, outs, k, h1, ha, hfd, ht, hrets, ?_⟩
  -- the last byte tells them apart
  intro heq
  have : (smallFs.fileBytes 1 0 4097).getLast? = some 0x63 := by decide +kernel
  rw [heq, this] at hlast
  cases hlast

/-! ## A read that fails -/

/-- What a read of an open file does with an inode `read_data` refuses: it returns -1 and adds
that to the offset, in 32 bits. -/
theorem Opened.read_refused {f : FileT} (h : Opened k a fd f) (hfd : 2 ≤ fd.val)
    (hfile : f.fOp = some .file) (hbad : ¬ fs.Readable f.inode) {buf : Nat} {n : Int} (hbuf : buf ≠ 0)
    (h0 : 0 ≤ n) :
    ∃ k', k.step fs (.read fd.val buf n) = some (.returned (-1) [], k') ∧
      ((k'.proc.pcb a).fileDescriptorTable fd).fOffset = (((f.fOffset : Int) - 1) % 2 ^ 32).toNat := by
  have hdata : readData fs f.inode f.fOffset buf n.toNat = (-1, []) := by
    unfold Fs.Readable at hbad
    rw [readData, if_pos (.inl (by omega))]
  rw [h.read hfd hbuf h0, Kernel.readFunc, h.entry, hfile]
  dsimp only
  rw [Kernel.regularFileRead, if_neg hbuf]
  simp only [h.entry, hdata]
  refine ⟨_, rfl, ?_⟩
  simp only [Proc.onFd, Function.update_self, h.entry]
  rfl

theorem Opened.read_accepted {f : FileT} (h : Opened k a fd f) (hfd : 2 ≤ fd.val)
    (hfile : f.fOp = some .file) (hok : fs.Readable f.inode) {buf : Nat} {n : Int} (hbuf : buf ≠ 0)
    (h0 : 0 ≤ n) (hn : n < 2 ^ 31) {v : Int} {data : List UInt8}
    (hs : k.step fs (.read fd.val buf n) = some (.returned v data, k')) : 0 ≤ v := by
  have hret : 0 ≤ (readData fs f.inode f.fOffset buf n.toNat).1 :=
    readData_ret_nonneg hok hbuf (by omega)
  rw [h.read hfd hbuf h0, Kernel.readFunc, h.entry, hfile] at hs
  dsimp only at hs
  rw [Kernel.regularFileRead, if_neg hbuf] at hs
  simp only [h.entry, Option.some.injEq, Prod.mk.injEq, Outcome.returned.injEq] at hs
  rw [← hs.1.1]
  exact hret

theorem Opened.ge_two {f : FileT} (h : Opened k a fd f) (hw : Wired k.proc) (hfile : f.fOp = some .file) :
    2 ≤ fd.val := by
  have hfits : Fits fd (some .file) := by
    rw [← hfile, ← h.entry]
    apply hw
    rw [h.entry]
    exact h.opened
  by_contra hlt
  obtain rfl | rfl : fd = 0 ∨ fd = 1 := by omega
  · simp [Fits] at hfits
  · simp [Fits] at hfits

/-- In every state of a run from boot, for every descriptor the running process has open on a
regular file: a read that returns -1 leaves the descriptor table as it was exactly if the
inode is one `read_data` accepts or `read` itself has refused the arguments. -/
theorem read_failed_iff {q : Paging} {mem : Memory} {es : List Event} {f : FileT}
    (hrun : run (Kernel.step fs) (Kernel.boot q mem) es = some k) (h : Opened k a fd f)
    (hfile : f.fOp = some .file) {buf : Nat} {n : Int} (hn : n < 2 ^ 31) :
    (∀ data k', k.step fs (.read fd.val buf n) = some (.returned (-1) data, k') →
      (k'.proc.pcb a).fileDescriptorTable = (k.proc.pcb a).fileDescriptorTable) ↔
      fs.Readable f.inode ∨ buf = 0 ∨ n < 0 := by
  have hfd : 2 ≤ fd.val := h.ge_two (wired_run hrun) hfile
  constructor
  · -- a refused inode moves the offset
    intro hkept
    by_contra hcond
    obtain ⟨hbad, hbuf, h0⟩ : ¬ fs.Readable f.inode ∧ buf ≠ 0 ∧ ¬ n < 0 := by
      simpa only [not_or] using hcond
    obtain ⟨k', hs, hoff⟩ := h.read_refused hfd hfile hbad hbuf (Int.not_lt.mp h0)
    rw [hkept _ _ hs, h.entry] at hoff
    omega
  · intro hcond data k' hs
    by_cases hargs : buf = 0 ∨ n < 0
    · have hret : Kernel.read fs fd.val buf n k = k.ret (-1) := by
        rw [Kernel.read, if_pos (.inr (.inr hargs))]
      obtain ⟨-, rfl⟩ := Kernel.ret_spec (hret ▸ (Kernel.call_eq_some hs).2)
      rfl
    · -- no read of an accepted inode returns -1
      obtain ⟨hbuf, h0⟩ := not_or.mp hargs
      have hok : fs.Readable f.inode := hcond.resolve_right hargs
      have := h.read_accepted hfd hfile hok hbuf (Int.not_lt.mp h0) hn hs
      omega

/-- The small image with a directory entry `data` that names an inode the image does not have. -/
def strayFs : Fs := { smallFs with mem := overlay smallFs.mem 0x4500a4 [9] }

/-- On the small image itself the inode is good, and a read may only fail by its arguments. -/
theorem read_failed_iff_data :
    ∃ k, run (Kernel.step smallFs) (Kernel.boot linkedPaging fun _ => 0) openData = some k ∧
      Opened k 0 2 ⟨some .file, 1, 0, 1⟩ ∧
      ((∀ data k', k.step smallFs (.read (2 : Fin 8).val 0 5) = some (.returned (-1) data, k') →
        (k'.proc.pcb 0).fileDescriptorTable = (k.proc.pcb 0).fileDescriptorTable) ↔
        smallFs.Readable 1 ∨ 0 = 0 ∨ (5 : Int) < 0) := by
  have hrun : (run (Kernel.step smallFs) (Kernel.boot linkedPaging fun _ => 0) openData).map (fun k =>
      (k.active, (k.proc.pcb 0).fileDescriptorTable 2)) = some (some 0, ⟨some .file, 1, 0, 1⟩) := by
    decide +kernel
  obtain ⟨k, hr, hq⟩ := Option.map_eq_some_iff.mp hrun
  obtain ⟨ha, hfd⟩ := Prod.mk.inj hq
  have hopened : Opened k 0 2 ⟨some .file, 1, 0, 1⟩ := ⟨ha, hfd, rfl⟩
  exact ⟨k, hr, hopened, read_failed_iff hr hopened rfl (by decide)⟩

/-- `open` takes the entry with inode 9 of an image of two; the read returns -1, and the offset
of the descriptor is 2^32 - 1. -/
theorem read_failed_moves :
    ∃ k k', run (Kernel.step strayFs) (Kernel.boot linkedPaging fun _ => 0) openData = some k ∧
      Opened k 0 2 ⟨some .file, 9, 0, 1⟩ ∧
      k.step strayFs (.read (2 : Fin 8).val localBuf 5) = some (.returned (-1) [], k') ∧
      (k'.proc.pcb 0).fileDescriptorTable 2 = ⟨some .file, 9, 4294967295, 1⟩ ∧
      (k'.proc.pcb 0).fileDescriptorTable ≠ (k.proc.pcb 0).fileDescriptorTable := by
  have hrun : ((run (Kernel.step strayFs) (Kernel.boot linkedPaging fun _ => 0) openData).bind fun k =>
      (k.step strayFs (.read (2 : Fin 8).val localBuf 5)).map fun r =>
        (k.active, (k.proc.pcb 0).fileDescriptorTable 2, r.1, (r.2.proc.pcb 0).fileDescriptorTable 2)) =
      some (some 0, ⟨some .file, 9, 0, 1⟩, .returned (-1) [], ⟨some .file, 9, 4294967295, 1⟩) := by
    decide +kernel
  obtain ⟨k, hr, hrun⟩ := Option.bind_eq_some_iff.mp hrun
  obtain ⟨⟨o, k'⟩, hs, hq⟩ := Option.map_eq_some_iff.mp hrun
  simp only [Prod.mk.injEq] at hq
  obtain ⟨ha, hfd, rfl, hfd'⟩ := hq
  refine ⟨k, k', hr, ⟨ha, hfd, rfl⟩, hs, hfd', ?_⟩
  intro heq
  rw [heq, hfd] at hfd'
  cases hfd'

end Flipit
