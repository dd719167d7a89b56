import Flipit.FileService

/- The user programs `cat` and `ls`, over the calls of `FileService`.

   A program is the tree of its calls; a buffer on its stack is a memory that starts
   with whatever lies there. The loops of both end only with what they read, so they
   carry `fuel`, and `none` is the result of a program that was given too little.

   Each program is proved alone with the service of a process that was just entered
   (`cat_yields`, `ls_yields`). `program_runs` carries that over to the kernel: what the
   process has written in any run of whole calls is a beginning of it, and all of it once
   the program has returned from `main`.

   `cat` reads 1024 bytes at a time from offset 0 on, so no read crosses the end of a
   block, and what it prints is the file wherever its blocks lie (`fileBytes_whole`).

   Correspondence:
     `ece391_fdputs`           ↔ `fdputs`
     `main` of `ece391cat.c`   ↔ `cat`, its loop `catLoop`
     `main` of `ece391ls.c`    ↔ `ls`, its loop `lsLoop` -/
namespace Flipit
open Machine Bytes Programs Programs.Program

/-- A user program: it ends with the status `main` returns. -/
abbrev UserProgram := Program Call Answer (Option Int)

/-- `ece391_fdputs`, of the bytes before the terminator. -/
def fdputs (fd : Int) (s : List UInt8) : Program Call Answer Unit := do
  let _ ← call (.write fd s)
  return ()

/-- The first `n` bytes of a buffer. -/
def prefixOf (buf : Memory) (n : Nat) : List UInt8 := (List.range n).map buf

/-- The loop of `cat`. -/
def catLoop (fd : Int) : Nat → Memory → UserProgram
  | 0, _ => return none
  | fuel + 1, buf => do
    let r ← call (.read fd 1024)
    let buf := overlay buf 0 r.2
    if r.1 = 0 then return some 0
    else if r.1 = -1 then do
      fdputs 1 (ascii "file read failed\n")
      return some 3
    else do
      let w ← call (.write 1 (prefixOf buf r.1.toNat))
      if w.1 = -1 then return some 3 else catLoop fd fuel buf

/-- `cat`. -/
def cat (fuel : Nat) (buf : Memory) : UserProgram := do
  let r ← call (.getargs 1024)
  let buf := overlay buf 0 r.2
  if r.1 ≠ 0 then do
    fdputs 1 (ascii "could not read arguments\n")
    return some 3
  else do
    let fd ← call (.openFile (stringAt buf 1024))
    if fd.1 = -1 then do
      fdputs 1 (ascii "file not found\n")
      return some 2
    else catLoop fd.1 fuel buf

/-- The loop of `ls`: `SBUFSIZE` is 33. -/
def lsLoop (fd : Int) : Nat → Memory → UserProgram
  | 0, _ => return none
  | fuel + 1, buf => do
    let r ← call (.read fd 32)
    let buf := overlay buf 0 r.2
    if r.1 = 0 then return some 0
    else if r.1 = -1 then do
      fdputs 1 (ascii "directory entry read failed\n")
      return some 3
    else do
      let buf := Function.update buf r.1.toNat 0x0A
      let w ← call (.write 1 (prefixOf buf (r.1.toNat + 1)))
      if w.1 = -1 then return some 3 else lsLoop fd fuel buf

/-- `ls`. -/
def ls (fuel : Nat) (buf : Memory) : UserProgram := do
  let fd ← call (.openFile (ascii "."))
  if fd.1 = -1 then do
    fdputs 1 (ascii "directory open failed\n")
    return some 2
  else lsLoop fd.1 fuel buf

/-- What a call puts on the terminal. -/
def printed : Call × Answer → List UInt8
  | (.write 1 bytes, _) => bytes
  | _ => []

/-! ## A process that was just entered -/

/-- The standard descriptors are open. -/
structure Desk.Standard (d : Desk) : Prop where
  stdin : (d.table 0).active = 1
  stdout : (d.table 1).active = 1 ∧ (d.table 1).fOp = some .stdout

/-- Nothing else is. -/
structure Desk.Fresh (d : Desk) : Prop where
  standard : d.Standard
  rest : ∀ fd : Fin 8, 2 ≤ fd.val → (d.table fd).active = 0

/-- Descriptor `fd` of the desk is open and holds `f`. -/
structure Desk.Open (d : Desk) (fd : Fin 8) (f : FileT) : Prop where
  standard : d.Standard
  ge : 2 ≤ fd.val
  entry : d.table fd = f
  active : f.active = 1

variable {fs : Fs} {d : Desk} {fd : Fin 8} {f : FileT} {inode offset : Nat}

theorem Desk.Standard.onFd (h : d.Standard) (hfd : 2 ≤ fd.val) (g : FileT → FileT) : (d.onFd fd g).Standard := by
  have h0 : 0 ≠ fd := by
    intro he
    subst he
    simp at hfd
  have h1 : 1 ≠ fd := by
    intro he
    subst he
    simp at hfd
  constructor
  · rw [Desk.onFd_ne d h0]
    exact h.stdin
  · rw [Desk.onFd_ne d h1]
    exact h.stdout

theorem firstInactive_of_lt (hlow : ∀ g : Fin 8, g < fd → (d.table g).active = 1) (hfree : (d.table fd).active = 0) :
    Kernel.firstInactive d.table = some fd := by
  rw [Kernel.firstInactive, ← Fin.find?_eq_find?_finRange, Fin.find?_eq_some_iff]
  refine ⟨by simp [hfree], fun g hg => ?_⟩
  simp [hlow g hg]

theorem Desk.Fresh.firstInactive (h : d.Fresh) : Kernel.firstInactive d.table = some 2 := by
  apply firstInactive_of_lt
  · intro g hg
    have hg2 : g = 0 ∨ g = 1 := by omega
    rcases hg2 with rfl | rfl
    · exact h.standard.stdin
    · exact h.standard.stdout.1
  · exact h.rest 2 (by simp)

theorem lookup_active {name : List UInt8} (hf : Desk.lookup fs name = some f) : f.active = 1 := by
  unfold Desk.lookup at hf
  dsimp only at hf
  split_ifs at hf
  unfold Desk.opened at hf
  split at hf
  · obtain rfl := Option.some.inj hf; rfl
  · obtain rfl := Option.some.inj hf; rfl
  · obtain rfl := Option.some.inj hf; rfl
  · cases hf

theorem Desk.Standard.openFile (h : d.Standard) (hfd : Kernel.firstInactive d.table = some fd) (hge : 2 ≤ fd.val)
    {name : List UInt8} (hf : Desk.lookup fs name = some f) :
    ∃ d', d.answer fs (.openFile name) = some (((fd.val : Int), []), d') ∧ d'.Open fd f ∧
      ∀ g, g ≠ fd → d'.table g = d.table g := by
  refine ⟨d.onFd fd fun _ => f, ?_, ⟨h.onFd hge _, hge, by simp, lookup_active hf⟩, fun g hg => d.onFd_ne hg _⟩
  rw [Desk.answer, Desk.openFile, hfd, hf]

theorem Desk.Fresh.openFile (h : d.Fresh) {name : List UInt8} (hf : Desk.lookup fs name = some f) :
    ∃ d', d.answer fs (.openFile name) = some ((2, []), d') ∧ d'.Open 2 f ∧ ∀ g, g ≠ 2 → d'.table g = d.table g :=
  h.standard.openFile h.firstInactive (by simp) hf

theorem openFile_missing {name : List UInt8} (hf : Desk.lookup fs name = none) :
    d.answer fs (.openFile name) = some ((-1, []), d) := by
  rw [Desk.answer, Desk.openFile, hf]
  cases Kernel.firstInactive d.table <;> rfl

theorem Desk.Standard.write (h : d.Standard) (bytes : List UInt8) :
    d.answer fs (.write 1 bytes) = some (((bytes.length : Int), []), d) := by
  have hindex : Kernel.fdIndex 1 = 1 := rfl
  rw [Desk.answer, Desk.write, hindex, if_neg (by simp [h.stdout.1]), h.stdout.2]
  rfl

theorem Desk.Open.moved {f' : FileT} {g : FileT → FileT} (h : d.Open fd f) (hg : g f = f') (hactive : f'.active = 1) :
    (d.onFd fd g).Open fd f' :=
  ⟨h.standard.onFd h.ge _, h.ge, by simp [h.entry, hg], hactive⟩

/-- `read` of an open descriptor behind the standard ones goes by its table. -/
theorem Desk.Open.read {r : Answer × Desk} (h : d.Open fd f) {n : Int} (hn : 0 ≤ n)
    (hr : (f.fOp = some .rtc ∧ r = ((0, []), d)) ∨ (f.fOp = some .file ∧ r = d.fileRead fs fd n.toNat) ∨
      (f.fOp = some .dir ∧ r = d.dirRead fs fd n.toNat)) : d.answer fs (.read fd.val n) = some r := by
  have hge := h.ge
  have hindex : Kernel.fdIndex (fd.val : Int) = fd := by
    apply Fin.ext
    have hval : ((Kernel.fdIndex (fd.val : Int)).val : Int) = fd.val := Kernel.fdIndex_val (by omega)
    omega
  have hopen : ¬ ((fd.val : Int) < 0 ∨ (fd.val : Int) > 7 ∨ n < 0 ∨ f.active ≠ 1 ∨ (fd.val : Int) = 1) := by
    have hactive := h.active
    omega
  rw [Desk.answer, Desk.read, hindex, h.entry, if_neg hopen]
  rcases hr with ⟨hop, rfl⟩ | ⟨hop, rfl⟩ | ⟨hop, rfl⟩
  · simp only [hop]
  · simp only [hop]
  · simp only [hop]

/-! ## The programs alone -/

theorem prefixOf_overlay (buf : Memory) (bytes : List UInt8) {n : Nat} (hn : n = bytes.length) :
    prefixOf (overlay buf 0 bytes) n = bytes := by
  subst hn
  apply List.ext_getElem (by simp [prefixOf])
  intro j hj hj'
  have hbyte := overlay_get (m := buf) (i := 0) hj'
  rw [Nat.zero_add, List.getD_eq_getElem _ _ hj'] at hbyte
  simpa [prefixOf] using hbyte

theorem prefixOf_update (buf : Memory) (n : Nat) (c : UInt8) :
    prefixOf (Function.update buf n c) (n + 1) = prefixOf buf n ++ [c] := by
  rw [prefixOf, List.range_succ, List.map_append, List.map_singleton, Function.update_self, prefixOf]
  congr 1
  apply List.map_congr_left
  intro j hj
  exact Function.update_of_ne (List.mem_range.mp hj).ne ..

theorem fdputs_yields (h : d.Standard) (s : List UInt8) :
    Yields (Desk.answer fs) printed (fdputs 1 s) d s () d := by
  have hall : Yields (Desk.answer fs) printed (fdputs 1 s) d (s ++ []) () d := Yields.call (h.write s) Yields.done
  rwa [List.append_nil] at hall

/-- Where the directory was read up to index `i`: what is left of its names, which end with the
first empty one. -/
def Fs.namesFrom (fs : Fs) (i : Nat) : List (List UInt8) :=
  ((List.range' i (fs.dentryCount - i)).map fs.name).takeWhile (· ≠ [])

theorem namesFrom_end {i : Nat} (h : fs.dentryCount ≤ i ∨ fs.name i = []) : fs.namesFrom i = [] := by
  rw [Fs.namesFrom]
  rcases h with h | h
  · rw [Nat.sub_eq_zero_of_le h]
    rfl
  · cases hn : fs.dentryCount - i with
    | zero => rfl
    | succ n => simp [List.range'_succ, h]

theorem namesFrom_cons {i : Nat} (hi : i < fs.dentryCount) (h : fs.name i ≠ []) :
    fs.namesFrom i = fs.name i :: fs.namesFrom (i + 1) := by
  rw [Fs.namesFrom, show fs.dentryCount - i = fs.dentryCount - (i + 1) + 1 by omega, List.range'_succ, List.map_cons,
    List.takeWhile_cons_of_pos (by simpa using h)]
  rfl

theorem Desk.Open.read_dir {i : Nat} (h : d.Open fd ⟨some .dir, 0, i, 1⟩) (hi : i ≤ fs.dentryCount) {n : Nat}
    (hn : 32 ≤ n) :
    (i = fs.dentryCount ∧ d.answer fs (.read fd.val n) = some ((0, []), d)) ∨
    (i < fs.dentryCount ∧ ∃ d', d.answer fs (.read fd.val n) = some ((((fs.name i).length : Int), fs.name i), d') ∧
      d'.Open fd ⟨some .dir, 0, i + 1, 1⟩ ∧ ∀ g, g ≠ fd → d'.table g = d.table g) := by
  have hread : d.answer fs (.read fd.val n) = some (d.dirRead fs fd (n : Int).toNat) :=
    h.read (by omega) (.inr (.inr ⟨rfl, rfl⟩))
  have hcount : fs.dentryCount < 2 ^ 32 := word_lt ..
  obtain ⟨hret, hname, hlen, -⟩ := readDentryByIndex_eq (d := .local) (n := 0) hi
  have hle : (fs.name i).length ≤ 32 := name_length_le ..
  rw [Int.toNat_natCast, Desk.dirRead, h.entry] at hread
  simp only [hret] at hread
  rw [if_neg (by decide)] at hread
  by_cases hend : i ≥ fs.dentryCount
  · rw [if_pos hend] at hread
    exact .inl ⟨by omega, hread⟩
  · rw [if_neg hend, Lookup.take_name, hname, hlen, Nat.min_eq_right hn, Nat.min_eq_right hle,
      List.take_of_length_le hle] at hread
    refine .inr ⟨by omega, _, hread, ?_, fun g hg => d.onFd_ne hg _⟩
    apply h.moved
    · have hw : w32 (i + 1) = i + 1 := w32_of_lt (by omega)
      simp only [hw]
    · rfl

theorem complain_yields (h : d.Standard) (s : List UInt8) (status : Int) :
    Yields (Desk.answer fs) printed (do fdputs 1 s; return some status : UserProgram) d s (some status) d := by
  have hputs : Yields (Desk.answer fs) printed (fdputs 1 s) d s () d := fdputs_yields h s
  have hall := Yields.bind (f := fun _ => (pure (some status) : UserProgram)) hputs Yields.done
  simpa using hall

theorem Desk.Open.read_file (h : d.Open fd ⟨some .file, inode, offset, 1⟩) (ho : fs.FileOk inode)
    (hoff : offset ≤ fs.lengthInB inode) {n : Nat} (hn : n < 2 ^ 31) {count : Nat}
    (hcount : count = min n (fs.lengthInB inode - offset)) :
    ∃ d', d.answer fs (.read fd.val n) = some (((count : Int), fs.delivered inode offset count), d') ∧
      d'.Open fd ⟨some .file, inode, offset + count, 1⟩ ∧ ∀ g, g ≠ fd → d'.table g = d.table g := by
  have hlen := ho.length_le
  have hdata : readData fs inode offset localBuf n = ((count : Int), fs.delivered inode offset count) := by
    rw [readData_eq ho.inode_lt hlen (by decide) (by omega), ← hcount]
  have hread : d.answer fs (.read fd.val n) = some (d.fileRead fs fd (n : Int).toNat) :=
    h.read (by omega) (.inr (.inl ⟨rfl, rfl⟩))
  rw [Int.toNat_natCast] at hread
  refine ⟨(d.fileRead fs fd n).2, hread.trans ?_, ?_, fun g hg => ?_⟩
  · rw [Desk.fileRead, h.entry, hdata]
  · rw [Desk.fileRead, h.entry, hdata]
    have hw : (((offset : Int) + count) % 2 ^ 32).toNat = offset + count := by omega
    dsimp only
    apply h.moved
    · simp only [hw]
    · rfl
  · dsimp only [Desk.fileRead]
    exact d.onFd_ne hg _

/-- A read of at most 1024 bytes from a multiple of 1024 stays in one block. -/
theorem fileBytes_whole {count : Nat} (hpiece : offset % 1024 = 0 ∨ count = 0) (hcount : count ≤ 1024) :
    fs.delivered inode offset count = fs.fileBytes inode offset count := by
  apply delivered_eq_iff.mpr
  intro hlt j hj
  omega

/-- From a multiple of 1024, or the end, `cat` prints what is left of the file. -/
theorem catLoop_file (ho : fs.FileOk inode) {fuel : Nat} (h : d.Open fd ⟨some .file, inode, offset, 1⟩)
    (hoff : offset ≤ fs.lengthInB inode) (hpiece : offset % 1024 = 0 ∨ offset = fs.lengthInB inode)
    (hfuel : fs.lengthInB inode - offset + 1024 ≤ 1024 * fuel) (buf : Memory) :
    ∃ d', Yields (Desk.answer fs) printed (catLoop fd.val fuel buf) d
      (fs.fileBytes inode offset (fs.lengthInB inode - offset)) (some 0) d' := by
  -- on the number of reads left
  induction fuel generalizing d offset buf with
  | zero => omega
  | succ fuel ih =>
    have hlen := ho.length_le
    obtain ⟨count, hcount⟩ : ∃ count, count = min 1024 (fs.lengthInB inode - offset) := ⟨_, rfl⟩
    obtain ⟨d1, hread, hopen, -⟩ := h.read_file ho hoff (n := 1024) (by decide) hcount
    rw [fileBytes_whole (by omega) (by omega)] at hread
    by_cases hend : count = 0
    · refine ⟨d1, ?_⟩
      rw [show fs.lengthInB inode - offset = 0 by omega]
      apply Yields.silent hread rfl
      subst hend
      exact Yields.done
    · obtain ⟨d2, hrest⟩ := ih hopen (by omega) (by omega) (by omega) (overlay buf 0 (fs.fileBytes inode offset count))
      refine ⟨d2, ?_⟩
      rw [show fs.lengthInB inode - offset = count + (fs.lengthInB inode - (offset + count)) by omega, fileBytes_add]
      apply Yields.silent hread rfl
      dsimp only
      rw [if_neg (by omega), if_neg (by omega), Int.toNat_natCast, prefixOf_overlay _ _ (by simp)]
      apply Yields.call (hopen.standard.write _)
      dsimp only
      rw [if_neg (by omega)]
      exact hrest

/-- From an index on, `cat` prints the names that are left, one behind the other. -/
theorem catLoop_dir {fuel i : Nat} (h : d.Open fd ⟨some .dir, 0, i, 1⟩) (hi : i ≤ fs.dentryCount)
    (hfuel : fs.dentryCount - i < fuel) (buf : Memory) :
    ∃ d', Yields (Desk.answer fs) printed (catLoop fd.val fuel buf) d (fs.namesFrom i).flatten (some 0) d' := by
  induction fuel generalizing d i buf with
  | zero => omega
  | succ fuel ih =>
    rcases h.read_dir hi (n := 1024) (by omega) with ⟨hend, hread⟩ | ⟨hlt, d1, hread, hopen, -⟩
    · refine ⟨d, ?_⟩
      rw [namesFrom_end (.inl hend.ge)]
      exact Yields.silent hread rfl Yields.done
    · by_cases hempty : fs.name i = []
      · refine ⟨d1, ?_⟩
        rw [namesFrom_end (.inr hempty)]
        rw [hempty] at hread
        exact Yields.silent hread rfl Yields.done
      · have hpos : (fs.name i).length ≠ 0 := by simpa using hempty
        obtain ⟨d2, hrest⟩ := ih hopen (by omega) (by omega) (overlay buf 0 (fs.name i))
        refine ⟨d2, ?_⟩
        rw [namesFrom_cons hlt hempty, List.flatten_cons]
        apply Yields.silent hread rfl
        dsimp only
        rw [if_neg (by omega), if_neg (by omega), Int.toNat_natCast, prefixOf_overlay _ _ rfl]
        apply Yields.call (hopen.standard.write _)
        dsimp only
        rw [if_neg (by omega)]
        exact hrest

theorem catLoop_rtc {fuel : Nat} (h : d.Open fd f) (hf : f.fOp = some .rtc) (hfuel : 0 < fuel) (buf : Memory) :
    Yields (Desk.answer fs) printed (catLoop fd.val fuel buf) d [] (some 0) d := by
  obtain ⟨fuel, rfl⟩ := Nat.exists_eq_add_of_lt hfuel
  rw [Nat.zero_add]
  exact Yields.silent (h.read (n := 1024) (by decide) (.inl ⟨hf, rfl⟩)) rfl Yields.done

/-- What is behind a descriptor that was just opened. -/
def Fs.contents (fs : Fs) (f : FileT) : List UInt8 :=
  match f.fOp with
  | some .file => fs.fileBytes f.inode 0 (fs.lengthInB f.inode)
  | some .dir => (fs.namesFrom 0).flatten
  | _ => []

/-- What `cat` has to say about its argument, and its status. -/
def catOutput (fs : Fs) (arg : List UInt8) : List UInt8 × Int :=
  if arg = [] then (ascii "could not read arguments\n", 3)
  else match Desk.lookup fs arg with
    | none => (ascii "file not found\n", 2)
    | some f => (fs.contents f, 0)

theorem lookup_cases {name : List UInt8} (hwf : fs.WellFormed) (h : Desk.lookup fs name = some f) :
    f = ⟨some .rtc, 0, 0, 1⟩ ∨ f = ⟨some .dir, 0, 0, 1⟩ ∨ ∃ inode, fs.FileOk inode ∧ f = ⟨some .file, inode, 0, 1⟩ := by
  unfold Desk.lookup at h
  dsimp only at h
  split_ifs at h with hret
  rcases readDentryByName_cases fs name .local 0 with ⟨i, hi, -, -, -, -, htype, hinode⟩ | ⟨hfail, -⟩
  · unfold Desk.opened at h
    rw [htype, hinode] at h
    split at h
    · exact .inl (Option.some.inj h).symm
    · exact .inr (.inl (Option.some.inj h).symm)
    · rename_i hfile
      exact .inr (.inr ⟨_, hwf.files i hi hfile, (Option.some.inj h).symm⟩)
    · cases h
  · omega

/-- Fuel for every loop over a file or the directory. -/
def Fs.enough (fs : Fs) : Nat := 4093 + fs.dentryCount

theorem Desk.getargs_delivers {n : Nat} (hne : d.argument ≠ []) (hlen : d.argument.length < n) :
    d.answer fs (.getargs n) = some ((0, d.argument ++ [0]), d) := by
  have hgo : ¬ ((n : Int) ≤ 0 ∨ d.argument = []) := by
    simp only [hne, or_false]
    omega
  rw [Desk.answer, Desk.getargs, if_neg hgo, if_pos (by omega)]

theorem Desk.getargs_empty {n : Int} (h : d.argument = []) : d.answer fs (.getargs n) = some ((-1, []), d) := by
  rw [Desk.answer, Desk.getargs, if_pos (.inr h)]

theorem cat_yields (hwf : fs.WellFormed) (h : d.Fresh) (h0 : 0 ∉ d.argument) (hlen : d.argument.length < 128)
    {fuel : Nat} (hfuel : fs.enough ≤ fuel) (buf : Memory) :
    ∃ d', Yields (Desk.answer fs) printed (cat fuel buf) d (catOutput fs d.argument).1
      (some (catOutput fs d.argument).2) d' := by
  have hfuel : 4093 + fs.dentryCount ≤ fuel := hfuel
  rw [catOutput]
  by_cases harg : d.argument = []
  · rw [if_pos harg]
    refine ⟨d, Yields.silent (Desk.getargs_empty harg) rfl ?_⟩
    exact complain_yields h.standard _ 3
  rw [if_neg harg]
  have hname : stringAt (overlay buf 0 (d.argument ++ [0])) 1024 = d.argument := stringAt_overlay h0 (by omega)
  cases hf : Desk.lookup fs d.argument with
  | none =>
    refine ⟨d, Yields.silent (Desk.getargs_delivers (n := 1024) harg (by omega)) rfl ?_⟩
    dsimp only
    rw [if_neg (by simp), hname]
    apply Yields.silent (openFile_missing hf) rfl
    exact complain_yields h.standard _ 2
  | some f =>
    obtain ⟨d1, hopened, hopen, -⟩ := h.openFile hf
    have hloop : ∃ d', Yields (Desk.answer fs) printed (catLoop 2 fuel (overlay buf 0 (d.argument ++ [0]))) d1
        (fs.contents f) (some 0) d' := by
      rcases lookup_cases hwf hf with rfl | rfl | ⟨inode, ho, rfl⟩
      · exact ⟨d1, catLoop_rtc hopen rfl (by omega) _⟩
      · exact catLoop_dir hopen (Nat.zero_le _) (by omega) _
      · have hlength := ho.length_le
        exact catLoop_file ho hopen (Nat.zero_le _) (.inl rfl) (by omega) _
    obtain ⟨d', hrest⟩ := hloop
    refine ⟨d', Yields.silent (Desk.getargs_delivers (n := 1024) harg (by omega)) rfl ?_⟩
    dsimp only
    rw [if_neg (by simp), hname]
    apply Yields.silent hopened rfl
    exact hrest

theorem lsLoop_yields {fuel i : Nat} (h : d.Open fd ⟨some .dir, 0, i, 1⟩) (hi : i ≤ fs.dentryCount)
    (hfuel : fs.dentryCount - i < fuel) (buf : Memory) :
    ∃ d', Yields (Desk.answer fs) printed (lsLoop fd.val fuel buf) d
      ((fs.namesFrom i).flatMap (· ++ [0x0A])) (some 0) d' := by
  induction fuel generalizing d i buf with
  | zero => omega
  | succ fuel ih =>
    rcases h.read_dir hi (n := 32) (by omega) with ⟨hend, hread⟩ | ⟨hlt, d1, hread, hopen, -⟩
    · refine ⟨d, ?_⟩
      rw [namesFrom_end (.inl hend.ge)]
      exact Yields.silent hread rfl Yields.done
    · by_cases hempty : fs.name i = []
      · refine ⟨d1, ?_⟩
        rw [namesFrom_end (.inr hempty)]
        rw [hempty] at hread
        exact Yields.silent hread rfl Yields.done
      · have hpos : (fs.name i).length ≠ 0 := by simpa using hempty
        have hline : prefixOf (Function.update (overlay buf 0 (fs.name i)) (fs.name i).length 0x0A)
            ((fs.name i).length + 1) = fs.name i ++ [0x0A] := by
          rw [prefixOf_update, prefixOf_overlay _ _ rfl]
        obtain ⟨d2, hrest⟩ := ih hopen (by omega) (by omega)
          (Function.update (overlay buf 0 (fs.name i)) (fs.name i).length 0x0A)
        refine ⟨d2, ?_⟩
        rw [namesFrom_cons hlt hempty, List.flatMap_cons]
        apply Yields.silent hread rfl
        dsimp only
        rw [if_neg (by omega), if_neg (by omega), Int.toNat_natCast, hline]
        apply Yields.call (hopen.standard.write _)
        dsimp only
        rw [if_neg (by omega)]
        exact hrest

/-- What `ls` prints, and its status, if `.` is no file. -/
def lsOutput (fs : Fs) : List UInt8 × Int :=
  match Desk.lookup fs (ascii ".") with
  | none => (ascii "directory open failed
", 2)
  | some f => if f.fOp = some .dir then ((fs.namesFrom 0).flatMap (· ++ [0x0A]), 0) else ([], 0)

theorem ls_yields (hdot : ∀ f, Desk.lookup fs (ascii ".") = some f → f.fOp ≠ some .file) (hwf : fs.WellFormed)
    (h : d.Fresh) {fuel : Nat} (hfuel : fs.enough ≤ fuel) (buf : Memory) :
    ∃ d', Yields (Desk.answer fs) printed (ls fuel buf) d (lsOutput fs).1 (some (lsOutput fs).2) d' := by
  have hfuel : 4093 + fs.dentryCount ≤ fuel := hfuel
  rw [lsOutput]
  cases hf : Desk.lookup fs (ascii ".") with
  | none =>
    refine ⟨d, Yields.silent (openFile_missing hf) rfl ?_⟩
    exact complain_yields h.standard _ 2
  | some f =>
    obtain ⟨d1, hopened, hopen, -⟩ := h.openFile hf
    have hnofile := hdot f hf
    rcases lookup_cases hwf hf with rfl | rfl | ⟨inode, ho, rfl⟩
    · obtain ⟨n, rfl⟩ := Nat.exists_eq_add_of_lt (show 0 < fuel by omega)
      refine ⟨d1, Yields.silent hopened rfl ?_⟩
      rw [Nat.zero_add]
      exact Yields.silent (hopen.read (n := 32) (by decide) (.inl ⟨rfl, rfl⟩)) rfl Yields.done
    · obtain ⟨d', hloop⟩ := lsLoop_yields hopen (Nat.zero_le fs.dentryCount) (show _ < fuel by omega) buf
      exact ⟨d', Yields.silent hopened rfl hloop⟩
    · exact absurd rfl hnofile

/-! ## On the kernel -/

/-- A process that was started by a command finds its argument and, if processes halt clean,
nothing open but the standard descriptors. -/
theorem entered_fresh {q : Paging} {mem : Memory} {es0 : List Event} {k0 k1 : Kernel} {env : ExecEnv}
    {entry : Nat} {command : List UInt8} {i : Fin 8}
    (hrun : run (Kernel.step fs) (Kernel.boot q mem) es0 = some k0)
    (hclean : Meets (Kernel.step fs) HaltsClean (Kernel.boot q mem) es0)
    (hs : k0.step fs (.execute (some command) env) = some (.entered entry, k1)) (hi : k1.active = some i) :
    (k1.proc.desk i).Fresh ∧ (k1.proc.desk i).argument = argToken command := by
  obtain ⟨-, -, hprivate⟩ := entered_private hrun hs hi
  obtain ⟨hsound, hc⟩ : Sound k0.proc ∧ Clean k0.proc :=
    run_invariant (I := fun k => Sound k.proc ∧ Clean k.proc) (G := HaltsClean)
      (fun h hg hs => ⟨sound_step h.1 hs, (clean_step h.1 h.2 hg hs).1⟩)
      ⟨sound_boot q mem, clean_boot q mem⟩ hclean hrun
  have htable := (clean_step (e := .execute (some command) env) hsound hc trivial hs).2 entry rfl i hi
  have hout : ((k1.proc.desk i).table 1).active = 1 := htable 1
  have hfits : ((k1.proc.desk i).table 1).fOp = some .stdout := hprivate.wired i 1 hout
  refine ⟨⟨⟨htable 0, hout, hfits⟩, fun fd hfd => ?_⟩, hprivate.holds.argument⟩
  rw [show ((k1.proc.desk i).table fd).active = _ from htable fd, if_neg (by omega)]

/-- A process whose conversation is that of a program, in any run: what it has written is a
beginning of what the program yields alone, and all of it once the program is done. -/
theorem program_runs {q : Paging} {mem : Memory} {es0 es : List Event} {k0 k1 k : Kernel} {env : ExecEnv}
    {entry : Nat} {command : List UInt8} {i : Fin 8} {p p' : UserProgram} {out : List UInt8} {status : Int} {d' : Desk}
    (hrun : run (Kernel.step fs) (Kernel.boot q mem) es0 = some k0)
    (hs : k0.step fs (.execute (some command) env) = some (.entered entry, k1)) (hi : k1.active = some i)
    (hG : Meets (Kernel.step fs) (Serviced i) k1 es) (hr : run (Kernel.step fs) k1 es = some k)
    (hp : p.after (conversation fs i k1 es) = some p')
    (hyields : Yields (Desk.answer fs) printed p (k1.proc.desk i) out (some status) d') :
    (conversation fs i k1 es).flatMap printed <+: out ∧
      ∀ st, p'.result = some st → st = some status ∧ (conversation fs i k1 es).flatMap printed = out := by
  obtain ⟨hi0, hlen, hprivate⟩ := entered_private hrun hs hi
  exact hyields.after hp (conversation_trace hi0 hlen hprivate hG hr)

/-- The first four bytes and the entry point of `shell`. -/
def shellHead : List UInt8 := [0x7f, 0x45, 0x4c, 0x46] ++ List.replicate 20 0 ++ [0x00, 0x80, 0x04, 0x08]

/-- Slot 1 runs `cat shell`; another terminal's shell starts and prints while it reads. -/
def catShell : List Event :=
  [.getargs localBuf 1024, .openFile (some (ascii "shell")) true, .tick 0 0 zeroEnv,
    .write 1 (some (cstr (ascii "391OS> "))) 7, .openFile (some (ascii "data")) true, .read 2 localBuf 10,
    .tick 0 0 zeroEnv, .tick 0 0 zeroEnv, .read 2 localBuf 1024, .key 0x61,
    .write 1 (some (cstr shellHead)) 28, .read 2 localBuf 1024]

theorem listFs_wellFormed : listFs.WellFormed where
  files := by
    have h : ∀ i, i < 63 → (listFs.dentry i).fileType = 2 →
        (listFs.dentry i).inode < listFs.inodeCount ∧ listFs.lengthInB (listFs.dentry i).inode ≤ 1023 * 4096 ∧
        ∀ j, j < (listFs.lengthInB (listFs.dentry i).inode + 4095) / 4096 →
          listFs.dataBlockNumber (listFs.dentry i).inode j < listFs.dataBlockCount := by
      decide +kernel
    intro i hi h2
    obtain ⟨hinode, hlength, hblocks⟩ := h i hi h2
    exact ⟨hinode, hlength, hblocks⟩

/-- Slot 1 runs `ls`, while other terminals start. -/
def lsRun : List Event :=
  [.openFile (some (ascii ".")) true, .read 2 localBuf 32, .tick 0 0 zeroEnv,
    .openFile (some (ascii ".")) true, .read 2 localBuf 32, .read 2 localBuf 32, .tick 0 0 zeroEnv,
    .tick 0 0 zeroEnv, .write 1 (some (cstr (ascii "shell\n"))) 6, .read 2 localBuf 32,
    .write 1 (some (cstr (ascii "data\n"))) 5, .rtc, .read 2 localBuf 32, .write 1 (some (cstr (ascii ".\n"))) 2,
    .read 2 localBuf 32]

end Flipit
