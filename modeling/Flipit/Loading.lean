import Flipit.Directory

/- Program loading.

   `execute` reads the file three times: 32 bytes into a local array for the
   executable check, the whole file into the page of the new process, and the four
   bytes of the entry point. The first and the last are shorter than a block and lie
   inside the file's first block; the second starts at offset 0, so its copy loop
   goes block by block. Hence none of them runs over the end of a block, and each
   delivers the file's own bytes whatever data blocks it is scattered over.

   `execute` is called by the system call, by `halt` of a root shell and by the tick
   that finds a terminal without a process (`entered_by_execute`); the result about
   runs (`loading_exact`) covers all three. -/
namespace Flipit
open Machine Bytes

/-- The local array of the executable check. -/
def header (fs : Fs) (env : ExecEnv) (inode : Nat) : Memory :=
  overlay env.tempRead 0 (readData fs inode 0 localBuf 32).2

/-- How much of the file fits between 0x08048000 and the end of the page. -/
def Fs.imageLength (fs : Fs) (inode : Nat) : Nat := min (fs.lengthInB inode) (0x400000 - 0x48000)

/-- The file `inode` has been loaded over the memory `m`, to start at `entry`. -/
structure Loaded (fs : Fs) (env : ExecEnv) (inode entry : Nat) (m : Memory) (k' : Kernel) : Prop where
  image : ∀ p, p < fs.imageLength inode → ∀ write,
    (k'.paging.translate ⟨true, write⟩ (0x08048000 + p)).map k'.mem = some (fs.fileByte inode p)
  written : ∃ a, k'.paging.translate ⟨false, true⟩ 0x08048000 = some a ∧
    k'.mem = overlay m a (fs.fileBytes inode 0 (fs.imageLength inode))
  below : ∀ x, k'.mem x ≠ m x → ∃ v, 0x08048000 ≤ v ∧ v < 0x08400000 ∧
    k'.paging.translate ⟨false, true⟩ v = some x
  header : ∀ j, j < min 32 (fs.lengthInB inode) → header fs env inode j = fs.fileByte inode j
  magic : (List.range 4).map (fs.fileByte inode) = [0x7f, 0x45, 0x4c, 0x46]
  entry : entry = (fs.fileByte inode 24).toNat + 2 ^ 8 * (fs.fileByte inode 25).toNat +
    2 ^ 16 * (fs.fileByte inode 26).toNat + 2 ^ 24 * (fs.fileByte inode 27).toNat

/-- The program an event can start: the command of the call, elsewhere the shell. -/
def Event.program : Event → Option (List UInt8)
  | .execute command _ => command
  | _ => some (ascii "shell")

/-- What `execute` finds uninitialised when the event calls it. -/
def Event.env : Event → ExecEnv
  | .execute _ env | .halt _ env | .tick _ _ env => env
  | _ => zeroEnv

/-! ## The three reads -/

section
variable {fs : Fs} {inode : Nat} {env : ExecEnv}

theorem fileBytes_getD {offset n j : Nat} (h : j < n) :
    (fs.fileBytes inode offset n).getD j 0 = fs.fileByte inode (offset + j) := by
  simp [Fs.fileBytes, h]

/-- A read that starts at a block boundary, or ends inside the block it starts in,
delivers the file. -/
theorem readData_file (hok : fs.Readable inode) {offset buf length : Nat} (hbuf : buf ≠ 0)
    (hw : offset + length < 2 ^ 32)
    (hblock : offset % 4096 = 0 ∨ offset % 4096 + length ≤ 4096) :
    (readData fs inode offset buf length).2 =
      fs.fileBytes inode offset (min length (fs.lengthInB inode - offset)) := by
  rw [readData_bytes hok hbuf hw]
  apply delivered_eq_iff.mpr
  intro hsmall j hj
  omega

/-- The array of the check: the file's bytes, and behind its end what the array held. -/
theorem header_eq (env : ExecEnv) (hok : fs.Readable inode) (j : Nat) :
    header fs env inode j =
      if j < min 32 (fs.lengthInB inode) then fs.fileByte inode j else env.tempRead j := by
  have hread := readData_file hok (show localBuf ≠ 0 by decide)
    (show 0 + 32 < 2 ^ 32 by decide) (.inl rfl)
  rw [header, hread, Nat.sub_zero]
  split_ifs with hj
  · calc overlay env.tempRead 0 (fs.fileBytes inode 0 (min 32 (fs.lengthInB inode))) j
        = overlay env.tempRead 0 (fs.fileBytes inode 0 (min 32 (fs.lengthInB inode))) (0 + j) := by
          rw [Nat.zero_add]
      _ = (fs.fileBytes inode 0 (min 32 (fs.lengthInB inode))).getD j 0 :=
          overlay_get (by simpa using hj)
      _ = fs.fileByte inode j := by rw [fileBytes_getD hj, Nat.zero_add]
  · apply overlay_outside
    rw [fileBytes_length]
    omega

theorem entryPoint_eq (hlt : inode < fs.inodeCount) (h28 : 28 ≤ fs.lengthInB inode) :
    Kernel.entryPoint fs env inode = (fs.fileByte inode 24).toNat +
      2 ^ 8 * (fs.fileByte inode 25).toNat + 2 ^ 16 * (fs.fileByte inode 26).toNat +
      2 ^ 24 * (fs.fileByte inode 27).toNat := by
  have hread := readData_file (Fs.readable_of_lt hlt) (show localBuf ≠ 0 by decide)
    (show 24 + 4 < 2 ^ 32 by decide) (.inr (by decide))
  rw [show min 4 (fs.lengthInB inode - 24) = 4 by omega] at hread
  have hbyte : ∀ j, j < 4 →
      overlay env.entryBuf 0 (fs.fileBytes inode 24 4) (w32 (0 + j)) = fs.fileByte inode (24 + j) := by
    intro j hj
    rw [w32_of_lt (by omega), overlay_get (by simpa using hj), fileBytes_getD hj]
  rw [Kernel.entryPoint, hread, word]
  have h0 := hbyte 0 (by omega)
  have h1 := hbyte 1 (by omega)
  have h2 := hbyte 2 (by omega)
  have h3 := hbyte 3 (by omega)
  simp only [Nat.zero_add, Nat.add_zero] at h0 h1 h2 h3 ⊢
  rw [h0, h1, h2, h3]

/-- A run laid from 0x08048000 on into the page of a process, as its code sees it. -/
theorem image_seen (layout : Layout) (pid frame : Nat) (m : Memory) (write : Bool) {p : Nat}
    {bytes : List UInt8} (hp : p < bytes.length) (hfit : bytes.length ≤ 0x400000 - 0x48000) :
    ((Paging.tables layout (some pid) frame).translate ⟨true, write⟩ (0x08048000 + p)).map
      (overlay m (0x800000 + 0x400000 * pid + 0x48000) bytes) = some (bytes.getD p 0) := by
  rw [Paging.translate_process layout pid frame _ (by omega), Option.map_some,
    show 0x800000 + 0x400000 * pid + (0x08048000 + p) % 2 ^ 22 =
      0x800000 + 0x400000 * pid + 0x48000 + p by omega, overlay_get hp]

end

/-! ## Every call of `execute` -/

section
variable {fs : Fs} {k k' : Kernel} {env : ExecEnv} {command : Option (List UInt8)} {entry : Nat}

theorem execute_loads {layout : Layout} {last : Option Nat} (hk : k.mmu.Ok layout last)
    (h : Kernel.execute fs env command k = some (.entered entry, k')) {name arg : List UInt8}
    (hname : command.bind parseCommand = some (name, arg))
    (hlt : (Kernel.found fs name).inode < fs.inodeCount) (h28 : 28 ≤ fs.lengthInB (Kernel.found fs name).inode)
    (hlen : fs.lengthInB (Kernel.found fs name).inode ≤ 1023 * 4096) :
    Loaded fs env (Kernel.found fs name).inode entry k.mem k' := by
  rcases Kernel.execute_spec h with ⟨m, cur, n, ho, -⟩ | 
    ⟨i, name', arg', n, a, hp, -, helf, hi, ho, ha, rfl⟩
  · cases ho
  obtain ⟨rfl, rfl⟩ := Prod.mk.inj (Option.some.inj (hp.symm.trans hname))
  set inode := (Kernel.found fs name').inode with hinode
  obtain rfl := Outcome.entered.inj ho
  have hread : (readData fs inode 0 0x08048000 (0x400000 - 0x48000)).2 =
      fs.fileBytes inode 0 (fs.imageLength inode) := by
    rw [readData_file (Fs.readable_of_lt hlt) (by decide) (by decide) (.inl rfl), Nat.sub_zero, Nat.min_comm,
      Fs.imageLength]
  have hpage : k.paging.userPageInit i.val = Paging.tables layout (some i.val)
      (Paging.shownFrame k.currentVisible k.terminalNum) :=
    (congrArg (·.userPageInit i.val) hk.paging).trans (Paging.userPageInit_tables i.isLt)
  have haddr : a = 0x800000 + 0x400000 * i.val + 0x48000 := by
    rw [hpage, Paging.translate_process _ _ _ _ (by decide)] at ha
    exact (Option.some.inj ha).symm
  have hfit : fs.imageLength inode ≤ 0x400000 - 0x48000 := Nat.min_le_right ..
  have htrans : ∀ v write user, 0x08000000 ≤ v → v < 0x08400000 →
      (k.paging.userPageInit i.val).translate ⟨user, write⟩ v =
        some (0x800000 + 0x400000 * i.val + v % 2 ^ 22) := by
    intro v write user hlow hhigh
    rw [hpage, Paging.translate_process _ _ _ _ (by omega)]
  refine ⟨?_, ⟨a, ha, by simp only [Kernel.launched, hread]⟩, ?_, ?_, ?_, ?_⟩
  · -- the image, through the page of the new process
    intro p hp write
    have hseen := image_seen layout i.val (Paging.shownFrame k.currentVisible k.terminalNum) k.mem write
      (show p < (fs.fileBytes inode 0 (fs.imageLength inode)).length by simpa using hp)
      (by simpa using hfit)
    rw [fileBytes_getD hp, Nat.zero_add, ← hpage, ← haddr] at hseen
    simpa only [Kernel.launched, hread] using hseen
  · -- what changed lies in the stored run
    intro x hx
    simp only [Kernel.launched, hread] at hx
    by_cases hin : a ≤ x ∧ x < a + fs.imageLength inode
    · refine ⟨0x08048000 + (x - a), by omega, by omega, ?_⟩
      refine (htrans _ _ _ (by omega) (by omega)).trans (congrArg some ?_)
      omega
    · exact absurd (overlay_outside (by simpa using hin)) hx
  · intro j hj
    rw [header_eq env (Fs.readable_of_lt hlt), if_pos hj]
  · -- the check passed, and its array holds the file's first bytes
    have hhead : ∀ j, j < 4 → header fs env inode j = fs.fileByte inode j := by
      intro j hj
      rw [header_eq env (Fs.readable_of_lt hlt), if_pos (by omega)]
    have hmagic : ((header fs env inode 0 == 0x7f && header fs env inode 1 == 0x45 &&
        header fs env inode 2 == 0x4c && header fs env inode 3 == 0x46) = true) := helf
    rw [hhead 0 (by omega), hhead 1 (by omega), hhead 2 (by omega), hhead 3 (by omega)] at hmagic
    simpa [List.range_succ, and_assoc] using hmagic
  · exact entryPoint_eq hlt h28

theorem launchShell_entered (h : Kernel.launchShell fs env k = some (.entered entry, k')) :
    Kernel.execute fs env (some (ascii "shell")) k = some (.entered entry, k') := by
  obtain ⟨⟨o, k1⟩, h1, h2⟩ := Option.bind_eq_some_iff.mp h
  cases o with
  | entered entry1 =>
    obtain ⟨ho, rfl⟩ := Prod.mk.inj (Option.some.inj h2)
    rw [h1, ho]
  | _ => cases h2

/-- A step that enters a program does so by `execute`, called in a state with the tables
of the family; only `halt` has printed before. -/
theorem entered_by_execute {e : Event} {layout : Layout} {last : Option Nat} (hk : k.mmu.Ok layout last)
    (hs : k.step fs e = some (.entered entry, k')) :
    ∃ k1 last', Kernel.execute fs e.env e.program k1 = some (.entered entry, k') ∧
      k1.mmu.Ok layout last' ∧ ((∀ status env, e ≠ .halt status env) → k1.mem = k.mem) := by
  cases e with
  | execute command env => exact ⟨k, last, (Kernel.call_eq_some hs).2, hk, fun _ => rfl⟩
  | halt status env =>
    obtain ⟨a, ha, h⟩ := Option.bind_eq_some_iff.mp (Kernel.call_eq_some hs).2
    dsimp only at h
    split at h
    · cases h
    · obtain ⟨k1, h1, h2⟩ := Option.bind_eq_some_iff.mp h
      obtain ⟨m, cur, rfl⟩ := Kernel.puts_frame h1
      exact ⟨_, last, launchShell_entered h2, hk, fun hne => absurd rfl (hne status env)⟩
  | tick esp ebp env =>
    have h : Kernel.scheduler fs env esp ebp k = some (.entered entry, k') := hs
    unfold Kernel.scheduler at h
    dsimp only at h
    split at h
    · refine ⟨_, last, launchShell_entered h, ?_, fun _ => rfl⟩
      have hok := Mmu.step_ok (.schedule k.next) hk
      rw [Mmu.step, Kernel.next_val] at hok
      exact hok
    · cases h
  | _ =>
    cases Kernel.step_cases hs with
    | quiet hh hq =>
      obtain ⟨v, data, ho⟩ := hq.returned
      cases ho

end

/-- Whenever the kernel enters a program, by a call or by starting a shell itself, and the
file it accepted has at least 28 bytes and fits its inode: the file is in the memory of
the new process as it stands on the image, as far as it fits its page, and nothing else
has been written; the check saw the file's first bytes, and the entry point is the word
at offset 24. -/
theorem loading_exact {fs : Fs} {q : Paging} {mem : Memory} {es : List Event} {k k' : Kernel}
    {e : Event} {entry : Nat} {name arg : List UInt8} (hwf : fs.WellFormed)
    (hrun : run (Kernel.step fs) (Kernel.boot q mem) es = some k)
    (hs : k.step fs e = some (.entered entry, k'))
    (hname : e.program.bind parseCommand = some (name, arg))
    (hfile : (Kernel.found fs name).fileType = 2 ∨ (Kernel.found fs name).inode < fs.inodeCount)
    (h28 : 28 ≤ fs.lengthInB (Kernel.found fs name).inode)
    (hlen : fs.lengthInB (Kernel.found fs name).inode ≤ 1023 * 4096) :
    ∃ k1, Kernel.execute fs e.env e.program k1 = some (.entered entry, k') ∧
      ((∀ status env, e ≠ .halt status env) → k1.mem = k.mem) ∧
      Loaded fs e.env (Kernel.found fs name).inode entry k1.mem k' := by
  obtain ⟨last, hmapped⟩ := Kernel.mapped_run hrun
  obtain ⟨k1, last', hexec, hok, hmem⟩ := entered_by_execute hmapped.ok hs
  refine ⟨k1, hexec, hmem, execute_loads hok hexec hname ?_ h28 hlen⟩
  rcases hfile with htype | hlt
  · -- a regular file of the directory
    rcases Kernel.execute_spec hexec with ⟨m, cur, n, ho, -⟩ | ⟨i, name', arg', n, a, hp, hret, -⟩
    · cases ho
    obtain ⟨rfl, rfl⟩ := Prod.mk.inj (Option.some.inj (hp.symm.trans hname))
    rcases readDentryByName_cases fs name' .local 0 with ⟨i, hi, -, -, -, -, htype', hinode⟩ | ⟨hfail, -⟩
    · have hok := hwf.files i hi (htype'.symm.trans htype)
      rw [Kernel.found, hinode]
      exact hok.inode_lt
    · exact absurd hfail hret
  · exact hlt

/-- An image whose program has 4100 bytes, in two blocks between which the second one of `data` lies. -/
def scatteredFs : Fs where
  bootAddr := 0x450000
  mem := [(0x450008, [4]), (0x451000, [0x04, 0x10, 0, 0, 1, 0, 0, 0, 3]), (0x456000, [0x67, 0x68])].foldl
    (fun m c => overlay m c.1 c.2) smallFs.mem

theorem scatteredFs_wellFormed : scatteredFs.WellFormed where
  files := by
    have h : ∀ i, i < 63 → (scatteredFs.dentry i).fileType = 2 →
        (scatteredFs.dentry i).inode < scatteredFs.inodeCount ∧
        scatteredFs.lengthInB (scatteredFs.dentry i).inode ≤ 1023 * 4096 ∧
        ∀ j, j < (scatteredFs.lengthInB (scatteredFs.dentry i).inode + 4095) / 4096 →
          scatteredFs.dataBlockNumber (scatteredFs.dentry i).inode j < scatteredFs.dataBlockCount := by
      decide +kernel
    intro i hi h2
    exact ⟨(h i hi h2).1, (h i hi h2).2.1, (h i hi h2).2.2⟩

/-- The first shell, from both of its blocks. -/
theorem loading_exact_shell :
    ∃ k', (Kernel.boot linkedPaging fun _ => 0).step scatteredFs (.tick 0 0 zeroEnv) =
        some (.entered 0x08048000, k') ∧
      (k'.paging.translate ⟨true, false⟩ 0x08048001).map k'.mem = some 0x45 ∧
      (k'.paging.translate ⟨true, false⟩ 0x08049001).map k'.mem = some 0x68 := by
  have hstep : ((Kernel.boot linkedPaging fun _ => 0).step scatteredFs (.tick 0 0 zeroEnv)).map (·.1) =
      some (.entered 0x08048000) := by decide +kernel
  obtain ⟨⟨o, k'⟩, hs, rfl⟩ := Option.map_eq_some_iff.mp hstep
  have hlen : scatteredFs.lengthInB (Kernel.found scatteredFs (ascii "shell")).inode = 4100 := by decide +kernel
  have hfirst : scatteredFs.fileByte (Kernel.found scatteredFs (ascii "shell")).inode 1 = 0x45 := by decide +kernel
  have hsecond : scatteredFs.fileByte (Kernel.found scatteredFs (ascii "shell")).inode 4097 = 0x68 := by
    decide +kernel
  have hrun : run (Kernel.step scatteredFs) (Kernel.boot linkedPaging fun _ => 0) [] = some _ := rfl
  obtain ⟨k1, -, -, hloaded⟩ := loading_exact scatteredFs_wellFormed hrun hs Kernel.parse_shell
    (.inl (by decide +kernel)) (by rw [hlen]; decide) (by rw [hlen]; decide)
  have hfits : ∀ p, p < 4100 → p < scatteredFs.imageLength (Kernel.found scatteredFs (ascii "shell")).inode := by
    intro p hp
    rw [Fs.imageLength, hlen]
    omega
  exact ⟨k', hs, by rw [← hfirst]; exact hloaded.image 1 (hfits 1 (by decide)) false,
    by rw [← hsecond]; exact hloaded.image 4097 (hfits 4097 (by decide)) false⟩

end Flipit
