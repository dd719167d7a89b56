import Flipit.Arguments
import Flipit.Directory
import Flipit.Programs

/- The file system of one process.

   What a process sees of the kernel's files is a service of its own (`Desk`): its argument
   string and its descriptor table over the read-only image. `Desk.answer` serves one call
   after the other and knows nothing of other processes, terminals or interrupts.
   `files_private` connects it to the kernel: in every run, whatever the others do in
   between, the answers to the calls of a process that was started by a command are those
   of the service, from the argument of the command and the table `execute` left on.
   A call is one step of these runs: `fname_length` of `filesystem.c` is static, and a tick
   inside an `open` or a directory read, which they leave out, can change it.

   Not served are the calls that wait for the keyboard or leave the process, and writes
   whose answer depends on bytes behind their buffer: `RTC_write` reads four whatever
   `nbytes` says. -/
namespace Flipit
open Machine Bytes Programs

/-- A call of a process, with the bytes it hands over and without the addresses of its
buffers, which are not `NULL`. -/
inductive Call where
  | getargs (nbytes : Int)
  | openFile (name : List UInt8)
  | close (fd : Int)
  | read (fd nbytes : Int)
  | write (fd : Int) (bytes : List UInt8)
  | vidmap (screenStart : Nat)
  deriving DecidableEq

/-- The value returned and the bytes delivered. -/
abbrev Answer := Int × List UInt8

/-- The service's state. -/
structure Desk where
  argument : List UInt8
  table : Fin 8 → FileT

namespace Desk
variable (fs : Fs) (d : Desk)

def onFd (fd : Fin 8) (f : FileT → FileT) : Desk :=
  { d with table := Function.update d.table fd (f (d.table fd)) }

@[simp] theorem onFd_self (fd : Fin 8) (f : FileT → FileT) : (d.onFd fd f).table fd = f (d.table fd) :=
  Function.update_self ..

theorem onFd_ne {fd g : Fin 8} (h : g ≠ fd) (f : FileT → FileT) : (d.onFd fd f).table g = d.table g :=
  Function.update_of_ne h ..

/-- `getargs`. -/
def getargs (nbytes : Int) : Answer :=
  if nbytes ≤ 0 ∨ d.argument = [] then (-1, [])
  else if (d.argument.length : Int) ≤ nbytes then (0, d.argument ++ [0])
  else (0, d.argument.take nbytes.toNat)

/-- The descriptor `open` makes for an entry of the directory. -/
def opened (dentry : Dentry) : Option FileT :=
  match dentry.fileType with
  | 0 => some ⟨some .rtc, 0, 0, 1⟩
  | 1 => some ⟨some .dir, 0, 0, 1⟩
  | 2 => some ⟨some .file, dentry.inode, 0, 1⟩
  | _ => none

/-- What `open` makes of a name. -/
def lookup (name : List UInt8) : Option FileT :=
  let l := readDentryByName fs (some name) Dentry.local 0
  if l.ret ≥ 0 then opened l.dentry else none

/-- `open`. -/
def openFile (name : List UInt8) : Answer × Desk :=
  match Kernel.firstInactive d.table, lookup fs name with
  | some fd, some f => ((fd.val, []), d.onFd fd fun _ => f)
  | _, _ => ((-1, []), d)

/-- `close`. -/
def close (fd : Int) : Answer × Desk :=
  if fd < 0 ∨ fd > 7 ∨ fd = 0 ∨ fd = 1 then ((-1, []), d)
  else if (d.table (Kernel.fdIndex fd)).active = 0 then ((-1, []), d)
  else ((0, []), d.onFd (Kernel.fdIndex fd) fun f => { f with active := 0 })

/-- `regular_file_read` of descriptor `fd`. -/
def fileRead (fd : Fin 8) (n : Nat) : Answer × Desk :=
  let f := d.table fd
  let r := readData fs f.inode f.fOffset localBuf n
  (r, d.onFd fd fun f => { f with fOffset := ((f.fOffset + r.1) % 2 ^ 32).toNat })

/-- `directory_file_read`. -/
def dirRead (fd : Fin 8) (n : Nat) : Answer × Desk :=
  let offset := (d.table fd).fOffset
  let l := readDentryByIndex fs offset Dentry.local 0
  if l.ret = -1 then ((-1, []), d)
  else if offset ≥ fs.dentryCount then ((0, []), d)
  else
    let n := min (min n 32) l.fnameLength
    ((n, (List.range n).map l.dentry.fileName), d.onFd fd fun f => { f with fOffset := w32 (f.fOffset + 1) })

/-- `read`, where it does not wait for the keyboard. -/
def read (fd nbytes : Int) : Option (Answer × Desk) :=
  if fd < 0 ∨ fd > 7 ∨ nbytes < 0 ∨ (d.table (Kernel.fdIndex fd)).active ≠ 1 ∨ fd = 1 then some ((-1, []), d)
  else match (d.table (Kernel.fdIndex fd)).fOp with
    | some .rtc => some ((0, []), d)
    | some .file => some (d.fileRead fs (Kernel.fdIndex fd) nbytes.toNat)
    | some .dir => some (d.dirRead fs (Kernel.fdIndex fd) nbytes.toNat)
    | _ => none

/-- What `RTC_write` says to a buffer. -/
def rtcAccepts (bytes : List UInt8) : Int :=
  let frequency := toInt32 (word (cstr bytes) 0)
  if bytes = [] then -1
  else if frequency > 1024 ∨ frequency < 2 then -1
  else if frequency.toNat &&& (frequency.toNat - 1) ≠ 0 then -1
  else 0

/-- `write`: it changes nothing the process can read back. -/
def write (fd : Int) (bytes : List UInt8) : Option Answer :=
  if fd < 0 ∨ fd > 7 ∨ (d.table (Kernel.fdIndex fd)).active ≠ 1 ∨ fd = 0 then some (-1, [])
  else match (d.table (Kernel.fdIndex fd)).fOp with
    | some .stdout => some (bytes.length, [])
    | some .rtc => some (rtcAccepts bytes, [])
    | some .file | some .dir => some (0, [])
    | _ => none

/-- One call after the other. -/
def answer (d : Desk) : Call → Option (Answer × Desk)
  | .getargs nbytes => some (d.getargs nbytes, d)
  | .openFile name => some (d.openFile fs name)
  | .close fd => some (d.close fd)
  | .read fd nbytes => d.read fs fd nbytes
  | .write fd bytes => (d.write fd bytes).map fun a => (a, d)
  | .vidmap screenStart =>
    some (if screenStart < 0x08000000 ∨ screenStart ≥ 0x08400000 then (-1, [])
      else (0, [0x00, 0x00, 0xC0, 0xFF]), d)

end Desk

/-- What a slot's block says to its process. -/
def Proc.desk (s : Proc) (i : Fin 8) : Desk :=
  ⟨argString (s.pcb i).arg, (s.pcb i).fileDescriptorTable⟩

/-! ## The calls among the events -/

/-- The call of an event, if the service has an answer. -/
def Event.call? : Event → Option Call
  | .getargs buf nbytes => if buf = 0 then none else some (.getargs nbytes)
  | .openFile (some name) _ => some (.openFile name)
  | .close fd => some (.close fd)
  | .read fd buf nbytes => if buf = 0 ∨ fd = 0 then none else some (.read fd nbytes)
  | .write fd (some buf) nbytes =>
    if 0 ≤ nbytes ∧ (fd = 1 ∨ 4 ≤ nbytes) then some (.write fd ((List.range nbytes.toNat).map buf)) else none
  | .vidmap screenStart => some (.vidmap screenStart)
  | _ => none

/-- The events that are calls. -/
def Event.isCall : Event → Bool
  | .execute _ _ | .halt _ _ | .read _ _ _ | .write _ _ _ | .openFile _ _ | .close _ | .getargs _ _
  | .vidmap _ => true
  | _ => false

/-- The calls of process `i`. -/
def callOf (i : Fin 8) (k : Kernel) (e : Event) : Option Call := if k.active = some i then e.call? else none

/-- What a call tells its process. -/
def Outcome.told : Outcome → Answer
  | .returned v data => (v, data)
  | _ => (0, [])

/-- Process `i` makes only calls that the service answers, and its argument is left alone. -/
structure Serviced (i : Fin 8) (k : Kernel) (e : Event) : Prop where
  call : k.active = some i → e.isCall = true → e.call?.isSome = true
  keeps : KeepsArgument i k e

instance (i : Fin 8) (k : Kernel) (e : Event) : Decidable (Serviced i k e) :=
  decidable_of_iff ((k.active = some i → e.isCall = true → e.call?.isSome = true) ∧ KeepsArgument i k e)
    ⟨fun h => ⟨h.1, h.2⟩, fun h => ⟨h.call, h.keeps⟩⟩

variable {fs : Fs} {k k' : Kernel} {e : Event} {o : Outcome} {i : Fin 8} {c : Call}

theorem desk_onFd (s : Proc) (fd : Fin 8) (f : FileT → FileT) : (s.onFd i fd f).desk i = (s.desk i).onFd fd f := by
  simp [Proc.desk, Proc.onFd, Desk.onFd]

/-! ## The kernel's own answers -/

/-- What the process is told, and what it finds afterwards. -/
def Kernel.Answers (k' : Kernel) (i : Fin 8) (o : Outcome) (r : Answer × Desk) : Prop :=
  o.told = r.1 ∧ k'.proc.desk i = r.2

theorem ret_answers {v : Int} {k1 : Kernel} (h : k1.ret v = some (o, k')) (hp : k1.proc = k.proc) :
    k'.Answers i o ((v, []), k.proc.desk i) := by
  obtain ⟨rfl, rfl⟩ := Prod.mk.inj (Option.some.inj h)
  exact ⟨rfl, by rw [hp]⟩

theorem moved_answers {a : Answer} {fd : Fin 8} {f : FileT → FileT} (hp : k'.proc = k.proc.onFd i fd f) :
    k'.Answers i (.returned a.1 a.2) (a, (k.proc.desk i).onFd fd f) := ⟨rfl, by rw [hp, desk_onFd]⟩

theorem onFd_answers {v : Int} {k1 : Kernel} {fd : Fin 8} {f : FileT → FileT} (h : k1.ret v = some (o, k'))
    (hp : k1.proc = k.proc.onFd i fd f) : k'.Answers i o ((v, []), (k.proc.desk i).onFd fd f) := by
  obtain ⟨rfl, rfl⟩ := Prod.mk.inj (Option.some.inj h)
  exact moved_answers (a := (v, [])) hp

theorem getargs_answers (ha : k.active = some i) (hz : strlen (k.proc.pcb i).arg 128 < 128) {buf : Nat} {nbytes : Int}
    (hbuf : buf ≠ 0) (h : k.getargs buf nbytes = some (o, k')) :
    k'.Answers i o ((k.proc.desk i).getargs nbytes, k.proc.desk i) := by
  rw [getargs_eq ha hz] at h
  have hargs : (buf = 0 ∨ nbytes ≤ 0 ∨ argString (k.proc.pcb i).arg = []) ↔
      (nbytes ≤ 0 ∨ (k.proc.desk i).argument = []) := by
    simp [hbuf, Proc.desk]
  rw [Desk.getargs]
  simp only [hargs] at h
  split_ifs at h ⊢ with h1 h2
  · exact ret_answers h rfl
  · obtain ⟨rfl, rfl⟩ := Prod.mk.inj (Option.some.inj h)
    exact ⟨rfl, rfl⟩
  · rename_i h3
    exact absurd h2 h3
  · rename_i h3
    exact absurd h3 h2
  · obtain ⟨rfl, rfl⟩ := Prod.mk.inj (Option.some.inj h)
    exact ⟨rfl, rfl⟩

theorem opened_none {d : Dentry} (h0 : d.fileType ≠ 0) (h1 : d.fileType ≠ 1) (h2 : d.fileType ≠ 2) :
    Desk.opened d = none := by
  unfold Desk.opened
  split
  · contradiction
  · contradiction
  · contradiction
  · rfl

theorem openFile_answers (ha : k.active = some i) {name : List UInt8} {past : Bool}
    (h : k.openFile fs (some name) past = some (o, k')) :
    k'.Answers i o ((k.proc.desk i).openFile fs name) := by
  rw [Kernel.openFile, ha, Option.bind_some] at h
  have htable : (k.proc.desk i).table = (k.proc.pcb i).fileDescriptorTable := rfl
  rw [Desk.openFile, htable]
  cases hfd : Kernel.firstInactive (k.proc.pcb i).fileDescriptorTable with
  | none =>
    simp only [hfd] at h ⊢
    split_ifs at h
    exact ret_answers h rfl
  | some fd =>
    simp only [hfd, Kernel.readDentryByName_eq fs name Dentry.local k.fnameLength 0, Desk.lookup] at h ⊢
    split_ifs at h ⊢ with hret
    · split at h
      · rename_i htype
        simp only [Desk.opened, htype]
        exact onFd_answers h rfl
      · rename_i htype
        simp only [Desk.opened, htype]
        exact onFd_answers h rfl
      · rename_i htype
        simp only [Desk.opened, htype]
        exact onFd_answers h rfl
      · rename_i h0 h1 h2
        rw [opened_none h0 h1 h2]
        exact ret_answers (k := k) h rfl
    · exact ret_answers (k := k) h rfl

theorem close_answers (ha : k.active = some i) {fd : Int} (h : k.close fd = some (o, k')) :
    k'.Answers i o ((k.proc.desk i).close fd) := by
  unfold Kernel.close at h
  rw [Desk.close]
  have htable : (k.proc.desk i).table = (k.proc.pcb i).fileDescriptorTable := rfl
  split_ifs at h with h1 h2
  · rw [if_pos (by tauto)]
    exact ret_answers h rfl
  · rw [if_pos (by tauto)]
    exact ret_answers h rfl
  · rw [if_neg (by tauto), htable]
    rw [ha, Option.bind_some] at h
    split_ifs at h ⊢ with h3
    · exact ret_answers h rfl
    · exact onFd_answers h rfl

theorem fileRead_answers {fd : Fin 8} {buf n : Nat} (hbuf : buf ≠ 0)
    (h : Kernel.regularFileRead fs k i fd buf n = some (o, k')) :
    k'.Answers i o ((k.proc.desk i).fileRead fs fd n) := by
  rw [Kernel.regularFileRead, if_neg hbuf] at h
  have hdata : ∀ inode offset, readData fs inode offset buf n = readData fs inode offset localBuf n := by
    intro inode offset
    simp [readData, hbuf, localBuf]
  simp only [hdata] at h
  obtain ⟨rfl, rfl⟩ := Prod.mk.inj (Option.some.inj h)
  exact moved_answers rfl

theorem dirRead_answers {fd : Fin 8} {buf n : Nat} (hbuf : buf ≠ 0)
    (h : Kernel.directoryFileRead fs k i fd buf n = some (o, k')) :
    k'.Answers i o ((k.proc.desk i).dirRead fs fd n) := by
  rw [Kernel.directoryFileRead, if_neg hbuf] at h
  rw [Desk.dirRead]
  have htable : (k.proc.desk i).table = (k.proc.pcb i).fileDescriptorTable := rfl
  simp only [htable]
  generalize hoff : ((k.proc.pcb i).fileDescriptorTable fd).fOffset = offset at h ⊢
  by_cases hidx : offset > fs.dentryCount
  · simp only [readDentryByIndex, if_pos hidx, if_true] at h ⊢
    exact ret_answers (k := k) h rfl
  · have hfound : readDentryByIndex fs offset Dentry.local k.fnameLength =
        readDentryByIndex fs offset Dentry.local 0 := by
      simp only [readDentryByIndex, if_neg hidx]
    simp only [hfound] at h
    split_ifs at h ⊢ with hret hend
    · exact ret_answers (k := k) h rfl
    · exact ret_answers (k := k) h rfl
    · obtain ⟨rfl, rfl⟩ := Prod.mk.inj (Option.some.inj h)
      refine moved_answers (k := k) (a := (_, _)) ?_
      rfl

theorem fdIndex_ne_zero {fd : Int} (hfd : ¬ (fd < 0 ∨ fd > 7)) (h0 : fd ≠ 0) : Kernel.fdIndex fd ≠ 0 := by
  intro h
  have hval : ((Kernel.fdIndex fd).val : Int) = fd := Kernel.fdIndex_val (by omega)
  rw [h] at hval
  exact h0 hval.symm

/-- A read that is not from entry 0: its table, if it is open, is not that of stdin. -/
theorem read_answers (hw : Wired k.proc) (ha : k.active = some i) {fd : Int} {buf : Nat} {n : Int} (hbuf : buf ≠ 0)
    (hfd : fd ≠ 0) (h : k.read fs fd buf n = some (o, k')) :
    ∃ r, (k.proc.desk i).read fs fd n = some r ∧ k'.Answers i o r := by
  have htable : (k.proc.desk i).table = (k.proc.pcb i).fileDescriptorTable := rfl
  rw [Kernel.read] at h
  rw [Desk.read, htable]
  by_cases hargs : fd < 0 ∨ fd > 7 ∨ buf = 0 ∨ n < 0
  · rw [if_pos hargs] at h
    exact ⟨_, if_pos (by tauto), ret_answers h rfl⟩
  rw [if_neg hargs, ha, Option.bind_some] at h
  by_cases hact : ((k.proc.pcb i).fileDescriptorTable (Kernel.fdIndex fd)).active ≠ 1
  · rw [if_pos hact] at h
    exact ⟨_, if_pos (by tauto), ret_answers h rfl⟩
  rw [if_neg hact] at h
  by_cases h1 : fd = 1
  · rw [if_pos h1] at h
    exact ⟨_, if_pos (by tauto), ret_answers h rfl⟩
  rw [if_neg h1] at h
  rw [if_neg (by tauto)]
  have hindex : Kernel.fdIndex fd ≠ 0 := fdIndex_ne_zero (by omega) hfd
  have hfits := hw i (Kernel.fdIndex fd) (not_not.mp hact)
  rw [Kernel.readFunc] at h
  cases hop : ((k.proc.pcb i).fileDescriptorTable (Kernel.fdIndex fd)).fOp with
  | none => simp [hop] at h
  | some op =>
    rw [hop] at h hfits
    cases op with
    | stdin =>
      rw [Fits, if_neg hindex] at hfits
      split_ifs at hfits <;> simp at hfits
    | stdout => simp at h
    | rtc =>
      refine ⟨_, rfl, ?_⟩
      exact ret_answers (k := k) h rfl
    | file => exact ⟨_, rfl, fileRead_answers hbuf h⟩
    | dir => exact ⟨_, rfl, dirRead_answers hbuf h⟩

theorem word_cstr {s : Memory} {n : Nat} (hn : 4 ≤ n) : word (cstr ((List.range n).map s)) 0 = word s 0 := by
  have hbyte : ∀ j, j < 4 → cstr ((List.range n).map s) (w32 (0 + j)) = s (w32 (0 + j)) := by
    intro j hj
    rw [w32_of_lt (by omega), Nat.zero_add]
    simp [cstr, show j < n by omega]
  simp only [word, hbyte 1 (by omega), hbyte 2 (by omega), hbyte 3 (by omega)]
  rw [show (0 : Nat) = 0 + 0 from rfl, hbyte 0 (by omega)]

theorem write_answers (hw : Wired k.proc) (ha : k.active = some i) {fd : Int} {buf : Memory} {n : Int} (hn : 0 ≤ n)
    (hfour : fd = 1 ∨ 4 ≤ n) (h : k.write fd (some buf) n = some (o, k')) :
    ∃ a, (k.proc.desk i).write fd ((List.range n.toNat).map buf) = some a ∧ k'.Answers i o (a, k.proc.desk i) := by
  have htable : (k.proc.desk i).table = (k.proc.pcb i).fileDescriptorTable := rfl
  rw [Kernel.write] at h
  rw [Desk.write, htable]
  by_cases hargs : fd < 0 ∨ fd > 7
  · rw [if_pos (by tauto)] at h
    exact ⟨_, if_pos (by tauto), ret_answers h rfl⟩
  rw [if_neg (by simp; omega), ha, Option.bind_some] at h
  by_cases hact : ((k.proc.pcb i).fileDescriptorTable (Kernel.fdIndex fd)).active ≠ 1
  · rw [if_pos hact] at h
    exact ⟨_, if_pos (by tauto), ret_answers h rfl⟩
  rw [if_neg hact] at h
  by_cases h0 : fd = 0
  · rw [if_pos h0] at h
    exact ⟨_, if_pos (by tauto), ret_answers h rfl⟩
  rw [if_neg h0] at h
  rw [if_neg (by tauto)]
  have hindex : Kernel.fdIndex fd ≠ 0 := fdIndex_ne_zero (by omega) h0
  have hfits := hw i (Kernel.fdIndex fd) (not_not.mp hact)
  rw [Kernel.writeFunc] at h
  cases hop : ((k.proc.pcb i).fileDescriptorTable (Kernel.fdIndex fd)).fOp with
  | none => simp [hop] at h
  | some op =>
    rw [hop] at h hfits
    cases op with
    | stdin => simp at h
    | stdout =>
      rw [Kernel.terminalWrite, if_neg (by omega)] at h
      obtain ⟨r, hr, hret⟩ := Option.bind_eq_some_iff.mp h
      obtain ⟨k1, h1, rfl⟩ := Option.map_eq_some_iff.mp hr
      obtain ⟨m, cur, rfl⟩ := Kernel.puts_frame h1
      refine ⟨_, rfl, ?_⟩
      have hlen : (((List.range n.toNat).map buf).length : Int) = n := by
        rw [List.length_map, List.length_range]
        omega
      rw [hlen]
      exact ret_answers (k := k) hret rfl
    | rtc =>
      have hlong : 4 ≤ n := by
        rcases hfour with rfl | h4
        · rw [show Kernel.fdIndex 1 = 1 from rfl] at hfits
          simp [Fits] at hfits
        · exact h4
      refine ⟨_, rfl, ?_⟩
      have hfirst : (List.range n.toNat).map buf ≠ [] := by
        simp
        omega
      rw [Desk.rtcAccepts, word_cstr (by omega), if_neg hfirst]
      simp only [Kernel.rtcWrite, if_neg (show ¬ n ≤ 0 by omega)] at h
      split_ifs at h ⊢
      · exact ret_answers (k := k) h rfl
      · exact ret_answers (k := k) h rfl
      · exact ret_answers (k := k) h rfl
    | file =>
      obtain ⟨k1, h1, hret⟩ := Option.bind_eq_some_iff.mp h
      obtain ⟨m, cur, rfl⟩ := Kernel.puts_frame h1
      exact ⟨_, rfl, ret_answers (k := k) hret rfl⟩
    | dir =>
      obtain ⟨k1, h1, hret⟩ := Option.bind_eq_some_iff.mp h
      obtain ⟨m, cur, rfl⟩ := Kernel.puts_frame h1
      exact ⟨_, rfl, ret_answers (k := k) hret rfl⟩

/-- A call of the process is answered as the service answers it, and leaves the block as the
service leaves the desk. -/
theorem call_answers (hw : Wired k.proc) (hz : strlen (k.proc.pcb i).arg 128 < 128) (hc : callOf i k e = some c)
    (hs : k.step fs e = some (o, k')) :
    (k.proc.desk i).answer fs c = some (o.told, k'.proc.desk i) := by
  unfold callOf at hc
  split_ifs at hc with ha
  have hanswers : ∃ r, (k.proc.desk i).answer fs c = some r ∧ k'.Answers i o r := by
    cases e with
    | getargs buf nbytes =>
      rw [Event.call?] at hc
      split_ifs at hc with hbuf
      obtain rfl := Option.some.inj hc
      exact ⟨_, rfl, getargs_answers ha hz hbuf (Kernel.call_eq_some hs).2⟩
    | openFile filename past =>
      cases filename with
      | none => cases hc
      | some name =>
        obtain rfl := Option.some.inj hc
        exact ⟨_, rfl, openFile_answers ha (Kernel.call_eq_some hs).2⟩
    | close fd =>
      obtain rfl := Option.some.inj hc
      exact ⟨_, rfl, close_answers ha (Kernel.call_eq_some hs).2⟩
    | read fd buf nbytes =>
      rw [Event.call?] at hc
      split_ifs at hc with hbuf
      obtain rfl := Option.some.inj hc
      exact read_answers hw ha (by tauto) (by tauto) (Kernel.call_eq_some hs).2
    | write fd buf nbytes =>
      cases buf with
      | none => cases hc
      | some s =>
        rw [Event.call?] at hc
        split_ifs at hc with hn
        obtain rfl := Option.some.inj hc
        obtain ⟨a, hwrite, hk⟩ := write_answers hw ha hn.1 hn.2 (Kernel.call_eq_some hs).2
        exact ⟨_, by rw [Desk.answer, hwrite, Option.map_some], hk⟩
    | vidmap screenStart =>
      obtain rfl := Option.some.inj hc
      refine ⟨_, rfl, ?_⟩
      have hv := (Kernel.call_eq_some hs).2
      rw [Kernel.vidmap] at hv
      split_ifs at hv ⊢
      · exact ret_answers hv rfl
      · obtain ⟨rfl, rfl⟩ := Prod.mk.inj (Option.some.inj hv)
        exact ⟨rfl, rfl⟩
    | _ => cases hc
  obtain ⟨r, hr, htold, hdesk⟩ := hanswers
  rw [hr, htold, hdesk]

/-! ## Everybody else -/

/-- Nothing but a process's own calls changes its descriptors, as long as its slot is its own. -/
theorem table_kept (hi0 : i ≠ 0) (htaken : k.proc.pidArray i = 1) (hG : KeepsArgument i k e)
    (hown : k.active = some i → e.isCall = false) (hs : k.step fs e = some (o, k')) :
    (k'.proc.pcb i).fileDescriptorTable = (k.proc.pcb i).fileDescriptorTable := by
  have hfree : ∀ {s : Proc} {j : Fin 8}, s.pidArray = k.proc.pidArray → s.freePid = some j → i ≠ j := by
    intro s j hs hj he
    subst he
    apply Proc.freePid_free hj
    rw [hs]
    exact htaken
  cases Kernel.step_cases hs with
  | quiet hh hq =>
    rcases hq.table with hp | ⟨a, fd, f, hd⟩
    · rw [hp]
    · -- a call changed a descriptor of its own process
      have hne : i ≠ a := by
        intro he
        subst he
        have htarget := hd.target
        have hcall := hown hd.active
        cases e with
        | read g buf n => cases hcall
        | close g => cases hcall
        | openFile name past => cases hcall
        | _ => exact htarget.elim
      rw [hd.proc]
      simp [Proc.onFd, Function.update_of_ne hne]
  | child ha hj hp hm ht => rw [hp, Proc.launch_pcb_ne (hfree rfl hj)]
  | @release _ b p status _ hb hpar hp hm ht =>
    obtain ⟨hbi, -⟩ := hG rfl b hb
    obtain ⟨arg, hblock⟩ := Proc.release_pcb (k.proc.closeAll b status) k.terminalNum b p i
    rw [hp, hblock, Proc.closeAll_pcb_ne hbi.symm]
  | @restart _ b j status _ _ hb hpar hj hp hm ht =>
    obtain ⟨hbi, -⟩ := hG rfl b hb
    obtain rfl : 0 = j := Option.some.inj (Kernel.haltedRoot_freePid.symm.trans hj)
    have hkept : (k.proc.closeAll b status).pcb i = k.proc.pcb i := Proc.closeAll_pcb_ne hbi.symm
    rw [hp, Proc.launch_pcb_ne hi0, Kernel.haltedRoot, Proc.releaseRoot, hkept]
  | @first _ j esp ebp _ _ ha hj hp hm ht =>
    rw [hp, Proc.launch_pcb_ne (hfree rfl hj)]
    rfl
  | switch ha hp hm ht =>
    rw [hp]
    rfl

/-- What holds of the block of process `i` while it runs. -/
structure Private (i : Fin 8) (arg : List UInt8) (k : Kernel) : Prop where
  sound : Sound k.proc
  wired : Wired k.proc
  holds : Holds i arg k.proc

variable {arg : List UInt8}

theorem private_step (hi0 : i ≠ 0) (h : Private i arg k) (hG : Serviced i k e) (hs : k.step fs e = some (o, k')) :
    Private i arg k' :=
  ⟨sound_step h.sound hs, wired_step h.wired h.sound hs, holds_step h.sound hi0 h.holds hG.keeps hs⟩

theorem desk_kept (hi0 : i ≠ 0) (h : Private i arg k) (hG : Serviced i k e) (hc : callOf i k e = none)
    (hs : k.step fs e = some (o, k')) : k'.proc.desk i = k.proc.desk i := by
  have hown : k.active = some i → e.isCall = false := by
    intro ha
    by_contra hcall
    have hsome := hG.call ha (by simpa using hcall)
    rw [callOf, if_pos ha] at hc
    rw [hc] at hsome
    cases hsome
  have harg := (holds_step h.sound hi0 h.holds hG.keeps hs).argument
  rw [Proc.desk, Proc.desk, harg, h.holds.argument, table_kept hi0 h.holds.taken hG.keeps hown hs]

/-- The conversation of process `i` with the kernel. -/
def conversation (fs : Fs) (i : Fin 8) : Kernel → List Event → List (Call × Answer) :=
  own (Kernel.step fs) (callOf i) Outcome.told

theorem conversation_trace (hi0 : i ≠ 0) (hlen : arg.length < 128) (h : Private i arg k) {es : List Event}
    (hG : Meets (Kernel.step fs) (Serviced i) k es) (hr : run (Kernel.step fs) k es = some k') :
    trace (Desk.answer fs) (k.proc.desk i) ((conversation fs i k es).map Prod.fst) =
      some ((conversation fs i k es).map Prod.snd, k'.proc.desk i) := by
  apply own_trace (I := Private i arg) _ _ _ h hG hr
  · intro k e r h hg hs
    exact private_step hi0 h hg hs
  · intro k e r h hg hc hs
    exact desk_kept hi0 h hg hc hs
  · intro k e r c h hg hc hs
    apply call_answers h.wired _ hc hs
    rw [← argString_length, h.holds.argument]
    exact hlen

/-! ## A process and its command -/

theorem entered_private {q : Paging} {mem : Memory} {es0 : List Event} {k0 k1 : Kernel} {env : ExecEnv}
    {entry : Nat} {command : List UInt8} (hrun : run (Kernel.step fs) (Kernel.boot q mem) es0 = some k0)
    (hs : k0.step fs (.execute (some command) env) = some (.entered entry, k1)) (hi : k1.active = some i) :
    i ≠ 0 ∧ (argToken command).length < 128 ∧ Private i (argToken command) k1 := by
  obtain ⟨last, hmapped⟩ := Kernel.mapped_run hrun
  obtain ⟨-, -, hlen, hholds⟩ := entered_argument hmapped.ok hs rfl hi
  have hsound := sound_run hrun
  have hi0 : i ≠ 0 := by
    cases Kernel.step_cases hs with
    | quiet hh hq =>
      obtain ⟨v, data, ho⟩ := hq.returned
      cases ho
    | @child _ a j _ _ _ _ ha hj hp hm ht =>
      obtain rfl : i = j := Option.some.inj (hi.symm.trans (Kernel.active_launched hp ht))
      intro h0
      subst h0
      exact Proc.freePid_free hj ((rootSlot_run hrun).taken _ _ ha)
  exact ⟨hi0, by omega, sound_step hsound hs, wired_step (wired_run hrun) hsound hs, hholds⟩

/-- Slot 1 reads its argument and the file `data`. The shell of another terminal starts, opens
the same file and reads it, the RTC interrupts, and a line is typed in between. -/
def sharedFile : List Event :=
  [.getargs localBuf 128, .openFile (some (ascii "data")) true, .key 0x61, .read 2 localBuf 3, .tick 0 0 zeroEnv,
    .openFile (some (ascii "shell")) true, .read 2 localBuf 2, .rtc, .close 2, .tick 0 0 zeroEnv, .tick 0 0 zeroEnv,
    .read 2 localBuf 4097, .write 1 (some fun _ => 0x62) 2, .close 2, .read 2 localBuf 4]

end Flipit
