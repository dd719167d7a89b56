import Flipit.Delivery
import Flipit.Descriptors
import Flipit.ProcessTable

/- The jump tables.

   A descriptor carries a pointer to a table of four functions. The tables of stdin
   and stdout have `NULL` in them, so `read_func` and `write_func` are safe only as
   long as each descriptor carries a table that fits its place (`Fits`): stdin in
   entry 0, stdout in entry 1, and behind them one of the tables `open` hands out.

   The slots of the process table are reused without being cleared, so the invariant
   (`Wired`) is about every slot, live or not. `open` writes into the first inactive
   entry, which is none of the first two: those of the caller are active, since its
   block was set up by `execute` (`Sound`) and neither `close` nor the loop of `halt`
   reaches them.

   What the calls store for their caller can undo it: a buffer of `read` or `getargs` may
   lie over a descriptor table (`stdin_overwritten`). As long as what is delivered goes
   into the caller's page, the tables are safe in every run (`jump_tables_safe`). -/
namespace Flipit
open Machine Bytes

/-- The functions the tables hold. -/
inductive Handler where
  | terminalRead
  | terminalWrite
  | rtcOpen
  | rtcRead
  | rtcWrite
  | rtcClose
  | regularFileOpen
  | regularFileRead
  | regularFileWrite
  | regularFileClose
  | directoryFileOpen
  | directoryFileRead
  | directoryFileWrite
  | directoryFileClose
  deriving DecidableEq

/-- `stdin_jmp_table` .. `dir_jmp_table`: open, read, write and close. -/
def OpTable.jmpTable : OpTable → List (Option Handler)
  | .stdin => [none, some .terminalRead, none, none]
  | .stdout => [none, none, some .terminalWrite, none]
  | .rtc => [some .rtcOpen, some .rtcRead, some .rtcWrite, some .rtcClose]
  | .file => [some .regularFileOpen, some .regularFileRead, some .regularFileWrite, some .regularFileClose]
  | .dir =>
    [some .directoryFileOpen, some .directoryFileRead, some .directoryFileWrite, some .directoryFileClose]

/-- `f_op[i]`, where neither the table nor the entry is `NULL`. -/
def FileT.handler (f : FileT) (i : Nat) : Option Handler :=
  f.fOp.bind fun op => (op.jmpTable[i]?).join

/-- `READ` and `WRITE`. -/
def opRead : Nat := 1
def opWrite : Nat := 2

/-- The table an active entry carries at its place. -/
def Fits (g : Fin 8) (op : Option OpTable) : Prop :=
  if g = 0 then op = some .stdin
  else if g = 1 then op = some .stdout
  else op = some .rtc ∨ op = some .dir ∨ op = some .file

/-- Every active entry of every slot carries a table that fits. -/
def Wired (s : Proc) : Prop :=
  ∀ q g, ((s.pcb q).fileDescriptorTable g).active = 1 → Fits g ((s.pcb q).fileDescriptorTable g).fOp

/-! ## The operations on the table -/

section
variable {s s' : Proc} {t : Int} {a i p : Fin 8} {arg : List UInt8} {esp ebp : Nat} {status : UInt8}

theorem fits_of_ge {g : Fin 8} {op : Option OpTable} (hg : 2 ≤ g.val)
    (h : op = some .rtc ∨ op = some .dir ∨ op = some .file) : Fits g op := by
  have h0 : g ≠ 0 := by
    intro he
    subst he
    simp at hg
  have h1 : g ≠ 1 := by
    intro he
    subst he
    simp at hg
  simpa [Fits, h0, h1] using h

theorem Wired.of_entries (h : Wired s)
    (he : ∀ q g, ((s'.pcb q).fileDescriptorTable g).active = 1 →
      ((s.pcb q).fileDescriptorTable g).active = 1 ∧
        ((s'.pcb q).fileDescriptorTable g).fOp = ((s.pcb q).fileDescriptorTable g).fOp) : Wired s' := by
  intro q g h1
  obtain ⟨hold, hop⟩ := he q g h1
  rw [hop]
  exact h q g hold

theorem Wired.of_pcb (h : Wired s) (hp : s'.pcb = s.pcb) : Wired s' := by
  apply h.of_entries
  intro q g h1
  rw [hp] at h1 ⊢
  exact ⟨h1, rfl⟩

theorem Wired.launch (h : Wired s) : Wired (s.launch t i arg esp ebp) := by
  intro q g h1
  by_cases hq : q = i
  · subst hq
    rw [Proc.launch_pcb] at h1 ⊢
    by_cases hg1 : g = 1
    · subst hg1; simp [Fits, Proc.newPcb]
    by_cases hg0 : g = 0
    · subst hg0; simp [Fits, Proc.newPcb]
    -- the other entries stay as the last owner left them
    simp only [Proc.newPcb, Function.update_of_ne hg1, Function.update_of_ne hg0] at h1 ⊢
    exact h q g h1
  · rw [Proc.launch_pcb_ne hq] at h1 ⊢
    exact h q g h1

theorem closeLoop_fOp (left n : Nat) (fds : Fin 8 → FileT) (g : Fin 8) :
    (Proc.closeLoop fds left n g).fOp = (fds g).fOp := by
  induction left generalizing n fds with
  | zero => rfl
  | succ left ih =>
    rw [Proc.closeLoop]
    split
    · rw [ih]
      by_cases hg : g = Fin.ofNat 8 n
      · subst hg; simp
      · rw [Function.update_of_ne hg]
    · rfl

theorem Wired.closeAll (h : Wired s) : Wired (s.closeAll a status) := by
  apply h.of_entries
  intro q g h1
  by_cases hq : q = a
  · subst hq
    simp only [Proc.closeAll, Function.update_self] at h1 ⊢
    refine ⟨?_, closeLoop_fOp ..⟩
    rcases closeLoop_active 6 2 (s.pcb q).fileDescriptorTable g with h0 | h0
    · rw [h0] at h1; cases h1
    · exact h0.symm.trans h1
  · rw [Proc.closeAll_pcb_ne hq] at h1 ⊢
    exact ⟨h1, rfl⟩

theorem Wired.release (h : Wired s) : Wired (s.release t a p) := by
  apply h.of_entries
  intro q g h1
  obtain ⟨arg, hq⟩ := Proc.release_pcb s t a p q
  rw [hq] at h1 ⊢
  exact ⟨h1, rfl⟩

theorem Wired.onFd {fd : Fin 8} {f : FileT → FileT} (h : Wired s)
    (hf : (f ((s.pcb a).fileDescriptorTable fd)).active = 1 →
      Fits fd (f ((s.pcb a).fileDescriptorTable fd)).fOp) : Wired (s.onFd a fd f) := by
  intro q g h1
  by_cases hq : q = a
  · subst hq
    by_cases hg : g = fd
    · subst hg
      simp only [Proc.onFd, Function.update_self] at h1 ⊢
      exact hf h1
    · simp only [Proc.onFd, Function.update_self, Function.update_of_ne hg] at h1 ⊢
      exact h q g h1
  · simp only [Proc.onFd, Function.update_of_ne hq] at h1 ⊢
    exact h q g h1

end

/-! ## Runs -/

section
variable {fs : Fs} {k k' : Kernel} {e : Event} {o : Outcome}

/-- The calls that change a descriptor: `read` its offset, `close` its flag, and `open`
writes a new entry into an inactive one. -/
theorem quiet_entries (hq : Kernel.Quiet e k o k') (hs : k.step fs e = some (o, k')) :
    k'.proc = k.proc ∨ (∃ a fd, Kernel.Moved k k' a fd) ∨
    (∃ a fd, k'.proc = k.proc.onFd a fd fun f => { f with active := 0 }) ∨
    (∃ a fd f, k.active = some a ∧ ((k.proc.pcb a).fileDescriptorTable fd).active = 0 ∧
      Kernel.NewEntry fs f ∧ k'.proc = k.proc.onFd a fd fun _ => f) := by
  rcases hq.table with hp | ⟨a, fd, f, hd⟩
  · exact .inl hp
  have htarget := hd.target
  cases e with
  | read g buf n =>
    rcases (Kernel.read_spec (Kernel.call_eq_some hs).2).2.2.2 with hp | ⟨b, -, -, hmoved⟩
    · exact .inl hp
    · exact .inr (.inl ⟨b, _, hmoved⟩)
  | close g =>
    rcases (Kernel.close_cases (Kernel.call_eq_some hs).2).2.2.2 with hp | ⟨b, -, -, -, hp⟩
    · exact .inl hp
    · exact .inr (.inr (.inl ⟨b, _, hp⟩))
  | openFile name past =>
    rcases (Kernel.openFile_cases (Kernel.call_eq_some hs).2).2.2 with
      ⟨-, hp⟩ | ⟨b, g, f', hb, hfree, hnew, -, hp⟩
    · exact .inl hp
    · exact .inr (.inr (.inr ⟨b, g, f', hb, hfree, hnew, hp⟩))
  | _ => exact htarget.elim

theorem wired_step (h : Wired k.proc) (hsound : Sound k.proc) (hs : k.step fs e = some (o, k')) :
    Wired k'.proc := by
  cases Kernel.step_cases hs with
  | quiet hh hq =>
    rcases quiet_entries hq hs with hp | ⟨a, fd, hp | ⟨g, hp⟩⟩ | ⟨a, fd, hp⟩ | ⟨a, fd, f, ha, hfree, hnew, hp⟩
    · rw [hp]; exact h
    · rw [hp]; exact h
    · rw [hp]
      apply h.onFd
      exact h a fd
    · rw [hp]
      apply h.onFd
      simp
    · rw [hp]
      apply h.onFd
      intro _
      apply fits_of_ge
      · exact (hsound.active _ _ ha).ge_two hfree
      · rcases hnew.table with hop | ⟨hop, -⟩ | ⟨hop, -⟩
        · exact .inl hop
        · exact .inr (.inl hop)
        · exact .inr (.inr hop)
  | child ha hi hp hm ht => rw [hp]; exact h.launch
  | release ha hpar hp hm ht => rw [hp]; exact h.closeAll.release
  | @restart _ a _ status _ _ ha hpar hi hp hm ht =>
    have hc : Wired (k.proc.closeAll a status) := h.closeAll
    rw [hp]
    exact Wired.launch (hc.of_pcb rfl)
  | first ha hi hp hm ht => rw [hp]; exact Wired.launch (h.of_pcb rfl)
  | switch ha hp hm ht => rw [hp]; exact h.of_pcb rfl

theorem mem_account {live : Live} {t : Int} {q : Fin 8} (h : q ∈ account k e o k' live t) :
    q ∈ live t ∨ (∃ entry, o = .entered entry) ∧ k'.active = some q := by
  -- what the halt leaves
  have hleft : ∀ u, q ∈ (if e.isHalt then Function.update live k.terminalNum (live k.terminalNum).tail
      else live) u → q ∈ live u := by
    intro u hq
    split at hq
    · by_cases hu : u = k.terminalNum
      · subst hu
        rw [Function.update_self] at hq
        exact List.mem_of_mem_tail hq
      · rwa [Function.update_of_ne hu] at hq
    · exact hq
  unfold account at h
  cases o with
  | entered entry =>
    dsimp only at h
    by_cases ht : t = k'.terminalNum
    · subst ht
      rw [Function.update_self, List.mem_append, Option.mem_toList] at h
      rcases h with hact | hq
      · exact .inr ⟨⟨entry, rfl⟩, hact⟩
      · exact .inl (hleft _ hq)
    · rw [Function.update_of_ne ht] at h
      exact .inl (hleft _ h)
  | _ => exact .inl (hleft _ h)

/-- What holds in every state of a run. -/
structure TablesOk (q : Kernel × Live) : Prop where
  wired : Wired q.1.proc
  sound : Sound q.1.proc
  live : ∀ t a, a ∈ q.2 t → Owned q.1.proc a

theorem tablesOk_step {q : Kernel × Live} {r : Outcome × (Kernel × Live)} (h : TablesOk q)
    (hs : stepLive fs q e = some r) : TablesOk r.2 := by
  obtain ⟨k, live⟩ := q
  obtain ⟨o, q'⟩ := r
  obtain ⟨k', hk, rfl⟩ := ghost_eq_some.mp hs
  have hsound := sound_step h.sound hk
  refine ⟨wired_step h.wired h.sound hk, hsound, fun t a ha => ?_⟩
  rcases mem_account ha with hold | ⟨-, hact⟩
  · exact (h.live t a hold).step hk
  · exact hsound.active _ _ hact

theorem wired_run {q : Paging} {mem : Memory} {es : List Event}
    (hr : run (Kernel.step fs) (Kernel.boot q mem) es = some k) : Wired k.proc := by
  have hboth : Wired k.proc ∧ Sound k.proc := by
    apply run_induction (I := fun k => Wired k.proc ∧ Sound k.proc) _ ⟨_, sound_boot q mem⟩ hr
    · intro k1 e r h hs
      exact ⟨wired_step h.1 h.2 hs, sound_step h.2 hs⟩
    · intro a g h1
      cases h1
  exact hboth.1

/-- The kernel that stores what its calls deliver, with the live processes. -/
def storedLive (linked : Linked) (fs : Fs) : Kernel × Live → Event → Option (Outcome × (Kernel × Live)) :=
  ghost (Kernel.stepStored linked fs) account

theorem tablesOk_stored {linked : Linked} {q : Kernel × Live} {r : Outcome × (Kernel × Live)} (h : TablesOk q)
    (hd : q.1.Delivers fs e) (hs : storedLive linked fs q e = some r) : TablesOk r.2 := by
  obtain ⟨k, live⟩ := q
  obtain ⟨o, q'⟩ := r
  obtain ⟨k', hk, rfl⟩ := ghost_eq_some.mp hs
  obtain ⟨k1, m, hstep, rfl⟩ := Kernel.stepStored_spec hd hk
  have hlive : stepLive fs (k, live) e = some (o, (k1, account k e o k1 live)) :=
    ghost_eq_some.mpr ⟨k1, hstep, rfl⟩
  have hok := tablesOk_step h hlive
  exact ⟨hok.wired, hok.sound, hok.live⟩

theorem tablesOk_run {linked : Linked} {q : Paging} {mem : Memory} {es : List Event} {live : Live}
    (hd : Meets (storedLive linked fs) (fun q e => q.1.Delivers fs e) (Kernel.boot q mem, fun _ => []) es)
    (hr : run (storedLive linked fs) (Kernel.boot q mem, fun _ => []) es = some (k, live)) :
    TablesOk (k, live) := by
  refine run_invariant (I := TablesOk) (fun h hd hs => tablesOk_stored h hd hs)
    ⟨?_, sound_boot q mem, ?_⟩ hd hr
  · intro a g h1
    cases h1
  · intro t a ha
    cases ha

end

/-! ## The calls through the tables -/

section
variable (fs : Fs) (k : Kernel) (a fd : Fin 8)

/-- The read functions. -/
def Handler.read (buf : Nat) (nbytes : Int) : Handler → Option (Outcome × Kernel)
  | .terminalRead => (k.terminalRead buf nbytes).map fun r => (.returned r.1.1 r.1.2, r.2)
  | .rtcRead => k.rtcRead.2.ret k.rtcRead.1
  | .regularFileRead => k.regularFileRead fs a fd buf nbytes.toNat
  | .directoryFileRead => k.directoryFileRead fs a fd buf nbytes.toNat
  | _ => none

/-- The write functions. -/
def Handler.write (buf : Option Memory) (nbytes : Int) : Handler → Option (Outcome × Kernel)
  | .terminalWrite => (k.terminalWrite buf nbytes).bind fun r => r.2.ret r.1
  | .rtcWrite => (k.rtcWrite buf nbytes).2.ret (k.rtcWrite buf nbytes).1
  | .regularFileWrite => k.writeNotImplemented
  | .directoryFileWrite => k.writeNotImplemented
  | _ => none

/-- `read_func` is the call of entry `READ`; it faults where there is none. -/
theorem readFunc_eq (buf : Nat) (nbytes : Int) :
    k.readFunc fs a fd buf nbytes =
      (((k.proc.pcb a).fileDescriptorTable fd).handler opRead).bind (Handler.read fs k a fd buf nbytes) := by
  unfold Kernel.readFunc FileT.handler
  cases ((k.proc.pcb a).fileDescriptorTable fd).fOp with
  | none => rfl
  | some op => cases op <;> rfl

theorem writeFunc_eq (buf : Option Memory) (nbytes : Int) :
    k.writeFunc a fd buf nbytes =
      (((k.proc.pcb a).fileDescriptorTable fd).handler opWrite).bind (Handler.write k buf nbytes) := by
  unfold Kernel.writeFunc FileT.handler
  cases ((k.proc.pcb a).fileDescriptorTable fd).fOp with
  | none => rfl
  | some op => cases op <;> rfl

end

/-- The checks of `read` and `write` on a descriptor of the running process, `other` being
the one of the first two that the call refuses. -/
structure Admitted (k : Kernel) (a : Fin 8) (fd nbytes other : Int) : Prop where
  active : k.active = some a
  range : ¬ (fd < 0 ∨ fd > 7)
  size : 0 ≤ nbytes
  opened : ((k.proc.pcb a).fileDescriptorTable (Kernel.fdIndex fd)).active = 1
  allowed : fd ≠ other

section
variable {fs : Fs} {k : Kernel} {a : Fin 8} {fd nbytes : Int}

theorem fdIndex_eq_iff (h : ¬ (fd < 0 ∨ fd > 7)) (g : Fin 8) :
    Kernel.fdIndex fd = g ↔ fd = g.val := by
  have hval := Kernel.fdIndex_val h
  constructor
  · intro he
    rw [← hval, he]
  · intro he
    apply Fin.ext
    omega

/-- An open entry has a function at `i` if each table that fits its place has. -/
theorem Wired.handler {g : Fin 8} {i : Nat} (h : Wired k.proc)
    (hopen : ((k.proc.pcb a).fileDescriptorTable g).active = 1)
    (hi : ∀ op, Fits g (some op) → (op.jmpTable[i]?).join.isSome) :
    ∃ f, ((k.proc.pcb a).fileDescriptorTable g).handler i = some f := by
  have hfits := h a g hopen
  cases hop : ((k.proc.pcb a).fileDescriptorTable g).fOp with
  | none =>
    rw [hop] at hfits
    simp [Fits] at hfits
  | some op =>
    rw [hop] at hfits
    rw [FileT.handler, hop, Option.bind_some]
    exact Option.isSome_iff_exists.mp (hi op hfits)

/-- A descriptor that passes the checks of `read` has a function to read with. -/
theorem Wired.read_handler (h : Wired k.proc) (hr : Admitted k a fd nbytes 1) :
    ∃ f, ((k.proc.pcb a).fileDescriptorTable (Kernel.fdIndex fd)).handler opRead = some f := by
  have h1 : Kernel.fdIndex fd ≠ 1 := by
    rw [ne_eq, fdIndex_eq_iff hr.range]
    exact hr.allowed
  apply h.handler hr.opened
  intro op hfits
  cases op with
  | stdout => simp [Fits, h1] at hfits
  | _ => rfl

theorem Wired.write_handler (h : Wired k.proc) (hr : Admitted k a fd nbytes 0) :
    ∃ f, ((k.proc.pcb a).fileDescriptorTable (Kernel.fdIndex fd)).handler opWrite = some f := by
  have h0 : Kernel.fdIndex fd ≠ 0 := by
    rw [ne_eq, fdIndex_eq_iff hr.range]
    exact hr.allowed
  apply h.handler hr.opened
  intro op hfits
  cases op with
  | stdin => simp [Fits, h0] at hfits
  | _ => rfl

theorem read_admitted {buf : Nat} (hr : Admitted k a fd nbytes 1) (hbuf : buf ≠ 0) :
    k.read fs fd buf nbytes = k.readFunc fs a (Kernel.fdIndex fd) buf nbytes := by
  have hrange := hr.range
  have hsize := hr.size
  have hcheck : ¬ (fd < 0 ∨ fd > 7 ∨ buf = 0 ∨ nbytes < 0) := by omega
  rw [Kernel.read, if_neg hcheck, hr.active, Option.bind_some]
  rw [if_neg (by simp [hr.opened]), if_neg hr.allowed]

theorem write_admitted {m : Memory} (hr : Admitted k a fd nbytes 0) :
    k.write fd (some m) nbytes = k.writeFunc a (Kernel.fdIndex fd) (some m) nbytes := by
  have hrange := hr.range
  have hsize := hr.size
  have hcheck : ¬ (fd < 0 ∨ fd > 7 ∨ (some m).isNone ∨ nbytes < 0) := by simp; omega
  rw [Kernel.write, if_neg hcheck, hr.active, Option.bind_some]
  rw [if_neg (by simp [hr.opened]), if_neg hr.allowed]

theorem close_low {k' : Kernel} {o : Outcome} (hs : k.step fs (.close fd) = some (o, k')) (q g : Fin 8)
    (hg : g.val < 2) :
    (k'.proc.pcb q).fileDescriptorTable g = (k.proc.pcb q).fileDescriptorTable g := by
  rcases (Kernel.close_cases (Kernel.call_eq_some hs).2).2.2.2 with hp | ⟨a, -, -, h2, hp⟩
  · rw [hp]
  · have hne : g ≠ Kernel.fdIndex fd := by
      intro he
      rw [he] at hg
      omega
    rw [hp]
    by_cases hq : q = a
    · subst hq; simp [Proc.onFd, Function.update_of_ne hne]
    · simp [Proc.onFd, Function.update_of_ne hq]

end

/-- In every state of a run from boot, with whatever calls of whatever processes and slots
reused as they come, as long as what the calls store for their callers lies in the
callers' pages: a process that is live or running has stdin in entry 0 and stdout in
entry 1, both active, and behind them only tables of `open` in its active entries. So a
`read` or `write` that passes its checks calls a function, and `close` deactivates
neither of the first two. -/
theorem jump_tables_safe {linked : Linked} {fs : Fs} {q : Paging} {mem : Memory} {es : List Event} {k : Kernel}
    {live : Live}
    (hd : Meets (storedLive linked fs) (fun q e => q.1.Delivers fs e) (Kernel.boot q mem, fun _ => []) es)
    (hr : run (storedLive linked fs) (Kernel.boot q mem, fun _ => []) es = some (k, live)) :
    (∀ a, (∃ t, a ∈ live t) ∨ k.active = some a →
      (((k.proc.pcb a).fileDescriptorTable 0).active = 1 ∧
        ((k.proc.pcb a).fileDescriptorTable 0).fOp = some .stdin) ∧
      (((k.proc.pcb a).fileDescriptorTable 1).active = 1 ∧
        ((k.proc.pcb a).fileDescriptorTable 1).fOp = some .stdout) ∧
      ∀ fd : Fin 8, 2 ≤ fd.val → ((k.proc.pcb a).fileDescriptorTable fd).active = 1 →
        let op := ((k.proc.pcb a).fileDescriptorTable fd).fOp
        op = some .rtc ∨ op = some .dir ∨ op = some .file) ∧
    (∀ a fd buf nbytes, Admitted k a fd nbytes 1 → buf ≠ 0 → ∃ f,
      ((k.proc.pcb a).fileDescriptorTable (Kernel.fdIndex fd)).handler opRead = some f ∧
      k.read fs fd buf nbytes = f.read fs k a (Kernel.fdIndex fd) buf nbytes) ∧
    (∀ a fd m nbytes, Admitted k a fd nbytes 0 → ∃ f,
      ((k.proc.pcb a).fileDescriptorTable (Kernel.fdIndex fd)).handler opWrite = some f ∧
      k.write fd (some m) nbytes = f.write k (some m) nbytes) ∧
    (∀ fd o k', k.step fs (.close fd) = some (o, k') → ∀ a g : Fin 8, g.val < 2 →
      (k'.proc.pcb a).fileDescriptorTable g = (k.proc.pcb a).fileDescriptorTable g) := by
  have hok := tablesOk_run hd hr
  have hwired : Wired k.proc := hok.wired
  refine ⟨fun a ha => ?_, fun a fd buf nbytes hadm hbuf => ?_, fun a fd m nbytes hadm => ?_,
    fun fd o k' hs a g hg => close_low hs a g hg⟩
  · have howned : Owned k.proc a := by
      rcases ha with ⟨t, hlive⟩ | hact
      · exact hok.live t a hlive
      · exact hok.sound.active _ _ hact
    refine ⟨⟨howned.stdin, ?_⟩, ⟨howned.stdout, ?_⟩, fun fd hfd h1 => ?_⟩
    · simpa [Fits] using hwired a 0 howned.stdin
    · simpa [Fits] using hwired a 1 howned.stdout
    · have h0 : fd ≠ 0 := by
        intro he
        subst he
        simp at hfd
      have hne : fd ≠ 1 := by
        intro he
        subst he
        simp at hfd
      simpa [Fits, h0, hne] using hwired a fd h1
  · obtain ⟨f, hf⟩ := hwired.read_handler hadm
    refine ⟨f, hf, ?_⟩
    rw [read_admitted hadm hbuf, readFunc_eq, hf, Option.bind_some]
  · obtain ⟨f, hf⟩ := hwired.write_handler hadm
    refine ⟨f, hf, ?_⟩
    rw [write_admitted hadm, writeFunc_eq, hf, Option.bind_some]

instance (fs : Fs) (q : Kernel × Live) (e : Event) : Decidable (q.1.Delivers fs e) := inferInstance

/-- The first shell opens a file, reads it into its page and executes a child, which tries to
close stdin and halts. -/
def readAndHalt : List Event :=
  [.tick 0 0 zeroEnv, .openFile (some (ascii "data")) true, .read 2 0x08100000 4,
    .execute (some (ascii "shell")) zeroEnv, .close 0, .halt 0 zeroEnv]

theorem jump_tables_safe_run :
    ∃ k live, run (storedLive smallLinked smallFs) (Kernel.boot linkedPaging fun _ => 0, fun _ => []) readAndHalt =
        some (k, live) ∧ live 0 = [0] ∧
      ((k.proc.pcb 0).fileDescriptorTable 0).fOp = some .stdin ∧
      ((k.proc.pcb 0).fileDescriptorTable 1).fOp = some .stdout := by
  have hrun : (run (storedLive smallLinked smallFs) (Kernel.boot linkedPaging fun _ => 0, fun _ => [])
      readAndHalt).map (fun q => q.2 0) = some [0] := by decide +kernel
  obtain ⟨⟨k, live⟩, hr, hlive⟩ := Option.map_eq_some_iff.mp hrun
  have hlive : live 0 = [0] := hlive
  have h := (jump_tables_safe (by decide +kernel) hr).1 0 (.inl ⟨0, by rw [hlive]; simp⟩)
  exact ⟨k, live, hr, hlive, h.1.2, h.2.1.2⟩

/-- A read into the block of the first shell itself. -/
def readOverTable : List Event :=
  [.tick 0 0 zeroEnv, .openFile (some (ascii "data")) true, .read 2 0x7FE000 4]

/-- The file begins with zeros, which become the table of stdin; the next read of stdin goes
through it. -/
theorem stdin_overwritten :
    ∃ k live, run (storedLive smallLinked smallFs) (Kernel.boot linkedPaging fun _ => 0, fun _ => [])
        readOverTable = some (k, live) ∧ 0 ∈ live 0 ∧ k.active = some 0 ∧
      ((k.proc.pcb 0).fileDescriptorTable 0).active = 1 ∧
      ((k.proc.pcb 0).fileDescriptorTable 0).fOp = none ∧
      k.read smallFs 0 0x08100000 1 = none := by
  have hrun : (run (storedLive smallLinked smallFs) (Kernel.boot linkedPaging fun _ => 0, fun _ => [])
      readOverTable).map (fun q => (q.2 0, q.1.active, ((q.1.proc.pcb 0).fileDescriptorTable 0).active,
        ((q.1.proc.pcb 0).fileDescriptorTable 0).fOp, (q.1.read smallFs 0 0x08100000 1).isNone)) =
      some ([0], some 0, 1, none, true) := by decide +kernel
  obtain ⟨⟨k, live⟩, hr, hq⟩ := Option.map_eq_some_iff.mp hrun
  simp only [Prod.mk.injEq, Option.isNone_iff_eq_none] at hq
  obtain ⟨hlive, hactive, hflag, hop, hread⟩ := hq
  exact ⟨k, live, hr, by rw [hlive]; simp, hactive, hflag, hop, hread⟩

end Flipit
