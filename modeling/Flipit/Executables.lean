import Flipit.Commands
import Flipit.Loading

/- Which commands `execute` starts, and what a refusal leaves.

   `execute` goes through its checks in order: the parsing, the lookup of the name, the
   first four bytes, a free pid. All its stores into the process table come behind the
   last one, so where it fails the kernel is as it was; only the last failure prints, and
   so moves the cursor of the scheduled terminal (`execute_atomic`).

   The third check reads `temp_read` without looking at what `read_data` returned, and
   nobody looks at the type of the entry. A directory or a device whose inode number is
   that of a program passes, and where the file is shorter than four bytes or its inode
   does not exist the check is about bytes that were on the stack before. A name of more
   than 128 bytes is stored over the end of its buffer before any check, and nothing is
   said of what `execute` does then (`execute_checks_iff`). -/
namespace Flipit
open Machine Bytes

variable {fs : Fs} {env : ExecEnv} {command : Option (List UInt8)} {k k' : Kernel} {o : Outcome}
  {name arg : List UInt8} {inode : Nat} {i : Fin 8}

/-! ## The outcomes of `execute` -/

/-- The command passes the checks before the allocation of a pid. -/
structure Passes (fs : Fs) (env : ExecEnv) (command : Option (List UInt8))
    (name arg : List UInt8) : Prop where
  parsed : command.bind parseCommand = some (name, arg)
  found : (readDentryByName fs (some name) Dentry.local 0).ret = 0
  executable : Kernel.isElf fs env (Kernel.found fs name).inode = true

theorem lookup_ret (fs : Fs) (name : List UInt8) :
    (readDentryByName fs (some name) Dentry.local 0).ret = 0 ∨
    (readDentryByName fs (some name) Dentry.local 0).ret = -1 := by
  rcases readDentryByName_cases fs name Dentry.local 0 with ⟨i, -, -, -, -, h, -⟩ | ⟨h, -⟩
  · exact .inl h
  · exact .inr h

theorem freePid_eq_none {s : Proc} : s.freePid = none ↔ ∀ p, s.pidArray p = 1 := by
  rw [Proc.freePid, List.find?_eq_none]
  simp

theorem translate_userPageInit (p : Paging) (n : Nat) :
    ∃ a, (p.userPageInit n).translate ⟨false, true⟩ 0x08048000 = some a := by
  simp [Paging.translate, Paging.userPageInit, Paging.setPde, Access.permits]

theorem execute_refused (k : Kernel) (h : ∀ name arg, ¬ Passes fs env command name arg) :
    ∃ n, Kernel.execute fs env command k = some (.returned (-1) [], { k with fnameLength := n }) := by
  unfold Kernel.execute
  cases hp : command.bind parseCommand with
  | none => exact ⟨k.fnameLength, rfl⟩
  | some q =>
    obtain ⟨name, arg⟩ := q
    dsimp only
    rw [Kernel.readDentryByName_eq fs name Dentry.local k.fnameLength 0]
    split_ifs with hret helf
    · exact ⟨_, rfl⟩
    · exact ⟨_, rfl⟩
    · -- all three checks passed
      exact absurd ⟨hp, (lookup_ret fs name).resolve_right hret, by simpa [Kernel.found] using helf⟩
        (h name arg)

/-- What passes them is started in the first free slot; without one a message is printed. -/
theorem execute_passed (k : Kernel) (h : Passes fs env command name arg) :
    ∃ n, Kernel.execute fs env command k = match k.proc.freePid with
      | none => ({ k with fnameLength := n }.puts (ascii "Exception: too many processes!\n")).bind
          fun k => k.ret (-1)
      | some i => Kernel.start fs env (Kernel.found fs name).inode arg i { k with fnameLength := n } := by
  refine ⟨(readDentryByName fs (some name) Dentry.local 0).fnameLength, ?_⟩
  have hret : ¬ (readDentryByName fs (some name) Dentry.local 0).ret = -1 := by
    rw [h.found]
    decide
  have helf : ¬ (!Kernel.isElf fs env (readDentryByName fs (some name) Dentry.local 0).dentry.inode) =
      true := by
    have : Kernel.isElf fs env (readDentryByName fs (some name) Dentry.local 0).dentry.inode = true :=
      h.executable
    rw [this]
    decide
  rw [Kernel.execute, h.parsed]
  dsimp only
  rw [Kernel.readDentryByName_eq fs name Dentry.local k.fnameLength 0, if_neg hret, if_neg helf]
  rfl

theorem execute_started (h : Passes fs env command name arg) (hi : k.proc.freePid = some i) :
    ∃ k', Kernel.execute fs env command k =
        some (.entered (Kernel.entryPoint fs env (Kernel.found fs name).inode), k') ∧
      k'.proc = k.proc.launch k.terminalNum i arg env.esp env.ebp := by
  obtain ⟨n, heq⟩ := execute_passed k h
  obtain ⟨a, ha⟩ := translate_userPageInit k.paging i.val
  rw [heq, hi]
  simp only [Kernel.start, Kernel.loadImage, ha, Option.map_some]
  exact ⟨_, rfl, rfl⟩

/-! ## A refusal -/

/-- The process table with its blocks, its pids and the TSS, the paging structures, and of
the terminal structures everything but the cursors. -/
structure Untouched (k k' : Kernel) : Prop where
  proc : k'.proc = k.proc
  paging : k'.paging = k.paging
  input : k'.input = k.input
  rtcFlag : k'.rtcFlag = k.rtcFlag
  terminalNum : k'.terminalNum = k.terminalNum
  currentVisible : k'.currentVisible = k.currentVisible

theorem puts_cursor {s : List UInt8} (h : k.puts s = some k') {t : Int} (ht : t ≠ k.terminalNum) :
    k'.cursor t = k.cursor t := by
  induction s generalizing k with
  | nil =>
    obtain rfl : k = k' := Option.some.inj h
    rfl
  | cons c s ih =>
    rw [Kernel.puts_cons] at h
    obtain ⟨k1, h1, h2⟩ := Option.bind_eq_some_iff.mp h
    obtain ⟨⟨m, cur⟩, -, rfl⟩ := Option.map_eq_some_iff.mp h1
    calc k'.cursor t
        = Function.update k.cursor k.terminalNum cur t := ih h2 ht
      _ = k.cursor t := Function.update_of_ne ht ..

theorem puts_onScreen {frame : Nat} {s : List UInt8} (hw : Window k.paging 0xB8000 frame)
    (hon : (k.cursor k.terminalNum).OnScreen) (hs : 0x08 ∉ s) : ∃ k', k.puts s = some k' := by
  induction s generalizing k with
  | nil => exact ⟨k, rfl⟩
  | cons c s ih =>
    have hc : c ≠ 0x08 := fun he => hs (by simp [he])
    have hput : k.paging.putcVia 0xB8000 c (withPage k.mem frame (pageAt k.mem frame)) (k.cursor k.terminalNum) = _ :=
      hw.putcVia hon fun he => absurd he hc
    rw [withPage_pageAt] at hput
    rw [Kernel.puts_cons, Kernel.putc, hput, Option.map_some, Option.bind_some]
    dsimp only
    apply ih
    · exact hw
    · simpa using Tty.putc_onScreen _ hon hc
    · exact fun he => hs (by simp [he])

theorem execute_returned {v : Int} {data : List UInt8}
    (h : Kernel.execute fs env command k = some (.returned v data, k')) :
    v = -1 ∧ data = [] ∧ Untouched k k' ∧
    (k'.cursor = k.cursor ∧ k'.mem = k.mem ∨
      (∃ name arg, Passes fs env command name arg) ∧ (∀ p, k.proc.pidArray p = 1) ∧
        ∀ t, t ≠ k.terminalNum → k'.cursor t = k.cursor t) := by
  by_cases hex : ∃ name arg, Passes fs env command name arg
  · obtain ⟨name, arg, hpass⟩ := hex
    cases hi : k.proc.freePid with
    | some i =>
      obtain ⟨k1, hk1, -⟩ := execute_started hpass hi
      rw [h] at hk1
      cases hk1
    | none =>
      obtain ⟨n, heq⟩ := execute_passed k hpass
      rw [h, hi] at heq
      obtain ⟨k1, h1, h2⟩ := Option.bind_eq_some_iff.mp heq.symm
      obtain ⟨ho, rfl⟩ := Prod.mk.inj (Option.some.inj h2)
      obtain ⟨rfl, rfl⟩ := Outcome.returned.inj ho
      have hcursor : ∀ t, t ≠ k.terminalNum → k1.cursor t = k.cursor t := fun t ht =>
        puts_cursor (k := { k with fnameLength := n }) h1 ht
      obtain ⟨m, cur, rfl⟩ := Kernel.puts_frame h1
      exact ⟨rfl, rfl, ⟨rfl, rfl, rfl, rfl, rfl, rfl⟩,
        .inr ⟨⟨name, arg, hpass⟩, freePid_eq_none.mp hi, hcursor⟩⟩
  · obtain ⟨n, heq⟩ := execute_refused k fun name arg hp => hex ⟨name, arg, hp⟩
    rw [h] at heq
    obtain ⟨ho, rfl⟩ := Prod.mk.inj (Option.some.inj heq)
    obtain ⟨rfl, rfl⟩ := Outcome.returned.inj ho
    exact ⟨rfl, rfl, ⟨rfl, rfl, rfl, rfl, rfl, rfl⟩, .inl ⟨rfl, rfl⟩⟩

theorem execute_enters_iff (k : Kernel) (h : Passes fs env command name arg) :
    (∃ entry k', Kernel.execute fs env command k = some (.entered entry, k')) ↔
      ∃ p, k.proc.pidArray p ≠ 1 := by
  constructor
  · intro hstarted
    obtain ⟨entry, k', hk'⟩ := hstarted
    rcases Kernel.execute_spec hk' with ⟨_, _, _, ho, -⟩ | ⟨i, _, _, _, _, -, -, -, hi, -⟩
    · cases ho
    · exact ⟨i, Proc.freePid_free hi⟩
  · intro hfree
    cases hi : k.proc.freePid with
    | none =>
      obtain ⟨p, hp⟩ := hfree
      exact absurd (freePid_eq_none.mp hi p) hp
    | some i =>
      obtain ⟨k', hk', -⟩ := execute_started h hi
      exact ⟨_, k', hk'⟩

/-- In every state and for every command. Where `execute` returns it returns -1, and the
process table, the paging structures and the terminals are as before, but for the cursor of
the scheduled terminal if the command is an executable and all eight pids are taken. An
executable is started exactly if a pid is free, in the first free slot. With all eight taken
the message is printed and -1 returned, if the cursor is on the screen and its page mapped. -/
theorem execute_atomic (fs : Fs) (env : ExecEnv) (command : Option (List UInt8)) (k : Kernel) :
    (∀ v data k', Kernel.execute fs env command k = some (.returned v data, k') →
      v = -1 ∧ data = [] ∧ Untouched k k' ∧
      (k'.cursor = k.cursor ∧ k'.mem = k.mem ∨
        (∃ name arg, Passes fs env command name arg) ∧ (∀ p, k.proc.pidArray p = 1) ∧
          ∀ t, t ≠ k.terminalNum → k'.cursor t = k.cursor t)) ∧
    ∀ name arg, Passes fs env command name arg →
      ((∃ entry k', Kernel.execute fs env command k = some (.entered entry, k')) ↔
        ∃ p, k.proc.pidArray p ≠ 1) ∧
      ((∀ p, k.proc.pidArray p = 1) → ∃ n, Kernel.execute fs env command k =
        ({ k with fnameLength := n }.puts (ascii "Exception: too many processes!\n")).bind
          fun k => k.ret (-1)) ∧
      ((∀ p, k.proc.pidArray p = 1) → (∃ frame, Window k.paging 0xB8000 frame) →
        (k.cursor k.terminalNum).OnScreen →
        ∃ k', Kernel.execute fs env command k = some (.returned (-1) [], k')) ∧
      ∀ i, k.proc.pidArray i ≠ 1 → (∀ q < i, k.proc.pidArray q = 1) →
        ∃ entry k', Kernel.execute fs env command k = some (.entered entry, k') ∧
          k'.proc = k.proc.launch k.terminalNum i arg env.esp env.ebp := by
  refine ⟨fun v data k' h => execute_returned h, fun name arg hpass => ⟨?_, fun hfull => ?_,
    fun hfull hmapped hon => ?_, ?_⟩⟩
  · exact execute_enters_iff k hpass
  · obtain ⟨n, heq⟩ := execute_passed k hpass
    rw [freePid_eq_none.mpr hfull] at heq
    exact ⟨n, heq⟩
  · obtain ⟨n, heq⟩ := execute_passed k hpass
    rw [freePid_eq_none.mpr hfull] at heq
    obtain ⟨frame, hw⟩ := hmapped
    have hplain : 0x08 ∉ ascii "Exception: too many processes!\n" := by decide
    obtain ⟨k', hk'⟩ := @puts_onScreen { k with fnameLength := n } frame _ hw hon hplain
    dsimp only at heq
    rw [hk', Option.bind_some] at heq
    exact ⟨k', heq⟩
  · intro i hi hleast
    obtain ⟨k', hk', hproc⟩ := execute_started hpass (Proc.freePid_eq_some.mpr ⟨hi, hleast⟩)
    exact ⟨_, k', hk', hproc⟩

/-- With eight nested shells the next `execute` fails, and the message has moved the cursor
of terminal 0. -/
theorem execute_moves_cursor :
    ∃ k k', run (Kernel.step smallFs) (Kernel.boot linkedPaging fun _ => 0)
        (.tick 0 0 zeroEnv :: List.replicate 7 (.execute (some (ascii "shell")) zeroEnv)) = some k ∧
      Kernel.execute smallFs zeroEnv (some (ascii "shell")) k = some (.returned (-1) [], k') ∧
      k.cursor 0 = ⟨0, 0, 0⟩ ∧ k'.cursor 0 = ⟨0, 1, 0⟩ := by
  have hrun : ((run (Kernel.step smallFs) (Kernel.boot linkedPaging fun _ => 0)
      (.tick 0 0 zeroEnv :: List.replicate 7 (.execute (some (ascii "shell")) zeroEnv))).bind fun k =>
        (Kernel.execute smallFs zeroEnv (some (ascii "shell")) k).map fun r =>
          (r.1, k.cursor 0, r.2.cursor 0)) =
      some (.returned (-1) [], ⟨0, 0, 0⟩, ⟨0, 1, 0⟩) := by decide +kernel
  obtain ⟨k, hk, hrun⟩ := Option.bind_eq_some_iff.mp hrun
  obtain ⟨⟨o, k'⟩, hs, hq⟩ := Option.map_eq_some_iff.mp hrun
  simp only [Prod.mk.injEq] at hq
  obtain ⟨rfl, hbefore, hafter⟩ := hq
  exact ⟨k, k', hk, hs, hbefore, hafter⟩

/-! ## What counts as executable -/

def elfMagic : List UInt8 := [0x7f, 0x45, 0x4c, 0x46]

/-- The name of the command is that of a regular file of at least four bytes that begins as
an executable does. -/
structure Executable (fs : Fs) (command : List UInt8) : Prop where
  found : (readDentryByName fs (some (nameToken command)) Dentry.local 0).ret = 0
  regular : (Kernel.found fs (nameToken command)).fileType = 2
  inode : (Kernel.found fs (nameToken command)).inode < fs.inodeCount
  length : 4 ≤ fs.lengthInB (Kernel.found fs (nameToken command)).inode
  magic : ∀ j, j < 4 → fs.fileByte (Kernel.found fs (nameToken command)).inode j = elfMagic.getD j 0

theorem isElf_iff (fs : Fs) (env : ExecEnv) (inode : Nat) :
    Kernel.isElf fs env inode = true ↔ ∀ j, j < 4 → header fs env inode j = elfMagic.getD j 0 := by
  change (header fs env inode 0 == 0x7f && header fs env inode 1 == 0x45 &&
    header fs env inode 2 == 0x4c && header fs env inode 3 == 0x46) = true ↔ _
  simp only [Bool.and_eq_true, beq_iff_eq]
  constructor
  · intro h j hj
    obtain ⟨⟨⟨h0, h1⟩, h2⟩, h3⟩ := h
    obtain rfl | rfl | rfl | rfl : j = 0 ∨ j = 1 ∨ j = 2 ∨ j = 3 := by omega
    · exact h0
    · exact h1
    · exact h2
    · exact h3
  · intro h
    exact ⟨⟨⟨h 0 (by omega), h 1 (by omega)⟩, h 2 (by omega)⟩, h 3 (by omega)⟩

theorem header_unreadable (env : ExecEnv) (h : ¬ fs.Readable inode) : header fs env inode = env.tempRead := by
  have hread : readData fs inode 0 localBuf 32 = (-1, []) := by
    apply if_pos
    unfold Fs.Readable at h
    omega
  funext j
  rw [header, hread]
  exact overlay_outside (by simp)

/-- The check fails, whatever the array held, exactly if one of the file's own first bytes is
wrong. -/
theorem never_elf_iff (fs : Fs) (inode : Nat) :
    (∀ env, Kernel.isElf fs env inode = false) ↔ fs.Readable inode ∧
      ∃ j, j < 4 ∧ j < fs.lengthInB inode ∧ fs.fileByte inode j ≠ elfMagic.getD j 0 := by
  constructor
  · intro h
    -- an array that held the bytes of an executable before
    have hfails := h ⟨0, 0, fun j => elfMagic.getD j 0, fun _ => 0⟩
    rw [Bool.eq_false_iff, Ne, isElf_iff] at hfails
    by_cases hok : fs.Readable inode
    · refine ⟨hok, ?_⟩
      by_contra hno
      apply hfails
      intro j hj
      rw [header_eq _ hok]
      split_ifs with hlt
      · by_contra hne
        exact hno ⟨j, hj, by omega, hne⟩
      · rfl
    · rw [header_unreadable _ hok] at hfails
      exact absurd (fun j _ => rfl) hfails
  · intro h env
    obtain ⟨hok, j, hj, hlen, hne⟩ := h
    rw [Bool.eq_false_iff, Ne, isElf_iff]
    intro hall
    apply hne
    rw [← hall j hj, header_eq env hok, if_pos (by omega)]

theorem parse_of_found {command : List UInt8}
    (h : (readDentryByName fs (some (nameToken command)) Dentry.local 0).ret = 0) :
    parseCommand command = some (nameToken command, argToken command) := by
  have htext : text (nameToken command) = nameToken command := stringAt_cstr zero_notMem_name
  rcases readDentryByName_cases fs (nameToken command) Dentry.local 0 with
    ⟨i, -, hne, hname, -⟩ | ⟨hfail, -⟩
  · have hlen := name_length_le fs i
    rw [hname, htext] at hlen
    rw [htext] at hne
    rcases parse_cases command with ⟨-, -, hnil⟩ | ⟨hlong, -⟩ | ⟨-, -, -, hparse⟩
    · exact absurd hnil hne
    · omega
    · exact hparse
  · rw [h] at hfail
    cases hfail

theorem found_inode_lt {name : List UInt8}
    (h : (readDentryByName fs (some name) Dentry.local 0).ret = 0) :
    (Kernel.found fs name).inode < 2 ^ 32 := by
  rcases readDentryByName_cases fs name Dentry.local 0 with ⟨i, -, -, -, -, -, -, hinode⟩ | ⟨hfail, -⟩
  · rw [Kernel.found, hinode]
    exact word_lt ..
  · rw [h] at hfail
    cases hfail

theorem passes_iff {command : List UInt8} : (∃ name arg, Passes fs env (some command) name arg) ↔
    (readDentryByName fs (some (nameToken command)) Dentry.local 0).ret = 0 ∧
    Kernel.isElf fs env (Kernel.found fs (nameToken command)).inode = true := by
  constructor
  · intro h
    obtain ⟨name, arg, hpass⟩ := h
    have hparsed := hpass.parsed
    rw [Option.bind_some] at hparsed
    rcases parse_cases command with ⟨-, hnone, -⟩ | ⟨-, -, hnone⟩ | ⟨-, -, -, hparse⟩
    · rw [hnone] at hparsed; cases hparsed
    · rw [hnone] at hparsed; cases hparsed
    · obtain ⟨rfl, rfl⟩ := Prod.mk.inj (Option.some.inj (hparse.symm.trans hparsed))
      exact ⟨hpass.found, hpass.executable⟩
  · intro h
    exact ⟨_, _, parse_of_found h.1, h.1, h.2⟩

/-- What the check says about an entry is right whatever `temp_read` held: a regular file that
fills the four bytes, or an entry whose inode can be read and has a wrong byte among them. -/
def Conclusive (fs : Fs) (d : Dentry) : Prop :=
  (d.fileType = 2 ∧ d.inode < fs.inodeCount ∧ 4 ≤ fs.lengthInB d.inode) ∨
  ((d.inode < fs.inodeCount ∨ fs.inodeCount = 0) ∧
    ∃ j, j < 4 ∧ j < fs.lengthInB d.inode ∧ fs.fileByte d.inode j ≠ elfMagic.getD j 0)

/-- For every image and every command: `execute` keeps its stores in its buffers, starts an
executable regular file only, and returns -1 for everything else, in every state and
whatever `temp_read` held, exactly if the name fits its buffer and is not found, or the
check of the entry found is conclusive. -/
theorem execute_checks_iff (fs : Fs) (command : List UInt8) :
    (StoresInside command ∧ ∀ env k,
      (∀ entry k', Kernel.execute fs env (some command) k = some (.entered entry, k') →
        Executable fs command) ∧
      (¬ Executable fs command →
        ∃ k', Kernel.execute fs env (some command) k = some (.returned (-1) [], k'))) ↔
    (nameToken command).length ≤ 128 ∧
      ((readDentryByName fs (some (nameToken command)) Dentry.local 0).ret ≠ 0 ∨
        Conclusive fs (Kernel.found fs (nameToken command))) := by
  constructor
  · intro hboth
    obtain ⟨hinside, h⟩ := hboth
    refine ⟨storesInside_length hinside, ?_⟩
    by_contra hcond
    simp only [not_or, not_not] at hcond
    obtain ⟨hfound, hopen⟩ := hcond
    -- an array with which the check passes, and a state with a free pid
    obtain ⟨env, helf⟩ : ∃ env, Kernel.isElf fs env (Kernel.found fs (nameToken command)).inode = true := by
      by_contra hnever
      apply hopen
      have hwrong := (never_elf_iff fs (Kernel.found fs (nameToken command)).inode).mp fun env => by
        rw [Bool.eq_false_iff]
        exact fun helf => hnever ⟨env, helf⟩
      exact .inr ⟨(Fs.readable_iff (found_inode_lt hfound)).mp hwrong.1, hwrong.2⟩
    obtain ⟨name, arg, hpass⟩ := passes_iff.mpr ⟨hfound, helf⟩
    have hfree : (Kernel.boot linkedPaging fun _ => 0).proc.freePid = some 0 :=
      Proc.freePid_zero (by decide)
    obtain ⟨k', hk', -⟩ := execute_started hpass hfree
    have hexec := (h env _).1 _ k' hk'
    exact hopen (.inl ⟨hexec.regular, hexec.inode, hexec.length⟩)
  · intro hboth
    obtain ⟨hfits, hcond⟩ := hboth
    refine ⟨storesInside_of_length hfits, fun env k => ?_⟩
    have hright : (∃ name arg, Passes fs env (some command) name arg) → Executable fs command := by
      intro hpass
      obtain ⟨hfound, helf⟩ := passes_iff.mp hpass
      rcases hcond with hmissing | ⟨htype, hinode, hlen⟩ | ⟨hread, hwrong⟩
      · exact absurd hfound hmissing
      · refine ⟨hfound, htype, hinode, hlen, fun j hj => ?_⟩
        rw [← (isElf_iff ..).mp helf j hj, header_eq env (Fs.readable_of_lt hinode), if_pos (by omega)]
      · have hok := (Fs.readable_iff (found_inode_lt hfound)).mpr hread
        rw [(never_elf_iff fs _).mpr ⟨hok, hwrong⟩ env] at helf
        cases helf
    constructor
    · intro entry k' hk'
      by_contra hno
      obtain ⟨n, heq⟩ := execute_refused k fun name arg hpass => hno (hright ⟨name, arg, hpass⟩)
      rw [hk'] at heq
      cases heq
    · intro hno
      obtain ⟨n, heq⟩ := execute_refused k fun name arg hpass => hno (hright ⟨name, arg, hpass⟩)
      exact ⟨_, heq⟩

/-- The directory of `listFs` has the inode number of the program `shell`: `execute` starts
it. -/
theorem execute_starts_directory :
    ∃ k, run (Kernel.step listFs) (Kernel.boot linkedPaging fun _ => 0) [.tick 0 0 zeroEnv] = some k ∧
      (Kernel.found listFs (nameToken (ascii "."))).fileType = 1 ∧
      (∃ entry k', Kernel.execute listFs zeroEnv (some (ascii ".")) k = some (.entered entry, k')) ∧
      ¬ Executable listFs (ascii ".") := by
  have hrun : ((run (Kernel.step listFs) (Kernel.boot linkedPaging fun _ => 0)
      [.tick 0 0 zeroEnv]).bind fun k =>
        (Kernel.execute listFs zeroEnv (some (ascii ".")) k).map fun r => r.1) =
      some (.entered 0x08048000) := by decide +kernel
  have htype : (Kernel.found listFs (nameToken (ascii "."))).fileType = 1 := by decide +kernel
  obtain ⟨k, hk, hrun⟩ := Option.bind_eq_some_iff.mp hrun
  obtain ⟨⟨o, k'⟩, hs, rfl⟩ := Option.map_eq_some_iff.mp hrun
  refine ⟨k, hk, htype, ⟨_, k', hs⟩, fun h => ?_⟩
  rw [h.regular] at htype
  cases htype

end Flipit
