import Flipit.Scheduler

/- Descriptor tables over whole runs.

   `execute` makes entries 0 and 1 of its slot's table active and leaves the others
   as the last owner left them, so a new process finds a clean table exactly as long
   as every slot is clean when it is free. `halt` closes descriptors from 2 on and
   stops at the first inactive one: a table with a gap stays open behind it
   (`new_table_dirty`). `Clean` is the invariant of the runs without gaps. It rests on
   `Sound`, which holds in every run: the blocks that a pointer leads to were set up
   by `execute`, so they hold their own pid, which `halt` frees. -/
namespace Flipit
open Machine

/-! ## The closing loop -/

/-- No entry from `n` on is inactive below an active one. -/
def NoGap (n : Nat) (fds : Fin 8 → FileT) : Prop :=
  ∀ f g : Fin 8, n ≤ f.val → f < g → (fds f).active = 0 → (fds g).active = 0

theorem closeLoop_active (left n : Nat) (fds : Fin 8 → FileT) (g : Fin 8) :
    (Proc.closeLoop fds left n g).active = 0 ∨
      (Proc.closeLoop fds left n g).active = (fds g).active := by
  induction left generalizing n fds with
  | zero => exact .inr rfl
  | succ left ih =>
    rw [Proc.closeLoop]
    by_cases h : (fds (Fin.ofNat 8 n)).active = 1
    · rw [if_pos h]
      rcases ih (n + 1) (Function.update fds (Fin.ofNat 8 n)
        { fds (Fin.ofNat 8 n) with active := 0 }) with hi | hi
      · exact .inl hi
      · rw [hi]
        by_cases hg : g = Fin.ofNat 8 n
        · subst hg; left; simp
        · right; rw [Function.update_of_ne hg]
    · rw [if_neg h]
      exact .inr rfl

theorem closeLoop_clean (left n : Nat) (fds : Fin 8 → FileT) (hn : n + left = 8)
    (hflag : ∀ g, (fds g).active = 0 ∨ (fds g).active = 1) (hgap : NoGap n fds) (g : Fin 8)
    (hg : n ≤ g.val) : (Proc.closeLoop fds left n g).active = 0 := by
  induction left generalizing n fds with
  | zero => omega
  | succ left ih =>
    have hval : (Fin.ofNat 8 n).val = n := Nat.mod_eq_of_lt (by omega)
    rw [Proc.closeLoop]
    by_cases h : (fds (Fin.ofNat 8 n)).active = 1
    · rw [if_pos h]
      by_cases hgn : g = Fin.ofNat 8 n
      · rcases closeLoop_active left (n + 1) (Function.update fds (Fin.ofNat 8 n)
          { fds (Fin.ofNat 8 n) with active := 0 }) g with hi | hi
        · exact hi
        · rw [hi, hgn]; simp
      · have hgv : g.val ≠ n := fun he => hgn (Fin.ext (he.trans hval.symm))
        -- the entry just closed lies behind the loop: no new gap
        refine ih (n + 1) _ (by omega) ?_ ?_ (by omega)
        · intro f
          by_cases hf : f = Fin.ofNat 8 n
          · subst hf; left; simp
          · rw [Function.update_of_ne hf]; exact hflag f
        · intro f f' hf hff'
          have hne : ∀ x : Fin 8, n + 1 ≤ x.val → x ≠ Fin.ofNat 8 n := by
            intro x hx he
            rw [he, hval] at hx; omega
          rw [Function.update_of_ne (hne f hf), Function.update_of_ne (hne f' (by omega))]
          exact hgap f f' (by omega) hff'
    · rw [if_neg h]
      -- the loop stops here, and nothing behind is active
      have h0 : (fds (Fin.ofNat 8 n)).active = 0 := (hflag _).resolve_right h
      by_cases hgn : g = Fin.ofNat 8 n
      · rw [hgn]; exact h0
      · have hgv : g.val ≠ n := fun he => hgn (Fin.ext (he.trans hval.symm))
        exact hgap (Fin.ofNat 8 n) g (by omega) (by rw [Fin.lt_def, hval]; omega) h0

theorem closeLoop_low (left n : Nat) (fds : Fin 8 → FileT) (hn : n + left ≤ 8) (g : Fin 8)
    (hg : g.val < n) : Proc.closeLoop fds left n g = fds g := by
  induction left generalizing n fds with
  | zero => rfl
  | succ left ih =>
    have hval : (Fin.ofNat 8 n).val = n := Nat.mod_eq_of_lt (by omega)
    rw [Proc.closeLoop]
    by_cases h : (fds (Fin.ofNat 8 n)).active = 1
    · rw [if_pos h, ih (n + 1) _ (by omega) (by omega)]
      exact Function.update_of_ne (fun he => by rw [he, hval] at hg; omega) ..
    · rw [if_neg h]

/-! ## Processes -/

/-- The block in slot `a` is a process's: it holds its own pid, and entries 0 and 1 of its
table are active. -/
structure Owned (s : Proc) (a : Fin 8) : Prop where
  pid : (s.pcb a).pid = a
  stdin : ((s.pcb a).fileDescriptorTable 0).active = 1
  stdout : ((s.pcb a).fileDescriptorTable 1).active = 1

/-- Every pointer to a block leads to a process's. -/
structure Sound (s : Proc) : Prop where
  active : ∀ t a, s.active t = some a → Owned s a
  parent : ∀ a p, (s.pcb a).parentPcb = some p → Owned s p

variable {s s' : Proc} {t : Int} {a i p : Fin 8} {arg : List UInt8} {esp ebp : Nat} {status : UInt8}

/-- Where blocks stay processes' and pointers lead to the same ones, or to one of them. -/
theorem Sound.mono (h : Sound s) (ho : ∀ b, Owned s b → Owned s' b)
    (ha : ∀ t b, s'.active t = some b → Owned s' b ∨ s.active t = some b)
    (hp : ∀ b q, (s'.pcb b).parentPcb = some q → Owned s' q ∨ (s.pcb b).parentPcb = some q) :
    Sound s' where
  active := fun t b hb => (ha t b hb).elim id fun hb => ho b (h.active t b hb)
  parent := fun b q hq => (hp b q hq).elim id fun hq => ho q (h.parent b q hq)

/-- A block that keeps its pid and its first two entries stays a process's. -/
theorem Owned.of_table {b : Fin 8} (h : Owned s b) (hpid : (s'.pcb b).pid = (s.pcb b).pid)
    (hlow : ∀ g : Fin 8, g.val < 2 → ((s.pcb b).fileDescriptorTable g).active = 1 →
      ((s'.pcb b).fileDescriptorTable g).active = 1) : Owned s' b where
  pid := hpid.trans h.pid
  stdin := hlow 0 (by decide) h.stdin
  stdout := hlow 1 (by decide) h.stdout

theorem Owned.of_eq {b : Fin 8} (h : Owned s b) (hp : s'.pcb b = s.pcb b) : Owned s' b := by
  apply h.of_table
  · rw [hp]
  · intro g _ h1
    rw [hp]
    exact h1

theorem Owned.ge_two {b fd : Fin 8} (h : Owned s b)
    (hfree : ((s.pcb b).fileDescriptorTable fd).active = 0) : 2 ≤ fd.val := by
  by_contra hlt
  obtain rfl | rfl : fd = 0 ∨ fd = 1 := by omega
  · rw [h.stdin] at hfree; cases hfree
  · rw [h.stdout] at hfree; cases hfree

theorem launch_owned : Owned (s.launch t i arg esp ebp) i := by
  constructor <;> rw [Proc.launch_pcb] <;> simp [Proc.newPcb]

theorem Owned.launch {b : Fin 8} (h : Owned s b) : Owned (s.launch t i arg esp ebp) b := by
  by_cases hbi : b = i
  · subst hbi; exact launch_owned
  · exact h.of_eq (Proc.launch_pcb_ne hbi)

theorem Sound.launch (h : Sound s) : Sound (s.launch t i arg esp ebp) := by
  refine h.mono (fun _ => Owned.launch) (fun u b hb => ?_) fun b q hq => ?_
  · by_cases hu : u = t
    · subst hu
      rw [Proc.launch_active] at hb
      obtain rfl := Option.some.inj hb
      exact .inl launch_owned
    · rw [Proc.launch_active_ne hu] at hb
      exact .inr hb
  · by_cases hbi : b = i
    · subst hbi
      rw [Proc.launch_pcb] at hq
      -- the parent is the active process, or what the slot held
      cases hact : s.active t with
      | none =>
        rw [Proc.newPcb_parent_root hact] at hq
        exact .inr hq
      | some c =>
        rw [Proc.newPcb_parent_child hact] at hq
        obtain rfl := Option.some.inj hq
        exact .inl (h.active t c hact).launch
    · rw [Proc.launch_pcb_ne hbi] at hq
      exact .inr hq

theorem closeAll_owned {b : Fin 8} (h : Owned s b) : Owned (s.closeAll a status) b := by
  apply h.of_table
  · exact Proc.closeAll_pid
  · intro g hg h1
    by_cases hb : b = a
    · subst hb
      simp only [Proc.closeAll, Function.update_self]
      rw [closeLoop_low 6 2 _ (by omega) g hg]
      exact h1
    · rw [Proc.closeAll_pcb_ne hb]
      exact h1

theorem Sound.closeAll (h : Sound s) : Sound (s.closeAll a status) :=
  h.mono (fun _ => closeAll_owned) (fun _ _ hb => .inr hb) fun _ _ hq =>
    .inr (Proc.closeAll_parent.symm.trans hq)

theorem release_owned {b : Fin 8} (h : Owned s b) : Owned (s.release t a p) b := by
  obtain ⟨arg, hb⟩ := Proc.release_pcb s t a p b
  apply h.of_table
  · rw [hb]
  · intro g _ h1
    rw [hb]
    exact h1

theorem Sound.release (h : Sound s) (hp : (s.pcb a).parentPcb = some p) : Sound (s.release t a p) := by
  refine h.mono (fun _ => release_owned) (fun u b hb => ?_) fun b q hq =>
    .inr (Proc.release_parent.symm.trans hq)
  by_cases hu : u = t
  · subst hu
    rw [Proc.release_active] at hb
    obtain rfl := Option.some.inj hb
    exact .inl (release_owned (h.parent a p hp))
  · rw [Proc.release_active_ne hu] at hb
    exact .inr hb

theorem Sound.of_pcb (h : Sound s) (hp : s'.pcb = s.pcb)
    (ha : ∀ t b, s'.active t = some b → s.active t = some b) : Sound s' :=
  h.mono (fun _ ho => ho.of_eq (by rw [hp])) (fun t b hb => .inr (ha t b hb))
    fun b q hq => .inr (by rwa [hp] at hq)

theorem releaseRoot_active_of {b : Fin 8} {u : Int} (h : (s.releaseRoot t).active u = some b) :
    s.active u = some b := by
  by_cases hu : u = t
  · subst hu; rw [Proc.releaseRoot_active] at h; cases h
  · rwa [Proc.releaseRoot_active_ne hu] at h

theorem ticked_active_of {k : Kernel} {b : Fin 8} {u : Int}
    (h : (k.ticked esp ebp).proc.active u = some b) : k.proc.active u = some b := by
  simp only [Kernel.ticked, Kernel.tickInit, Proc.active] at h
  split at h
  · cases h
  · exact h

/-- One descriptor changes: the pid and the parent stay, and the first two entries stay
active. -/
theorem onFd_pcb {e : Event} {fd : Fin 8} {f : FileT → FileT} (s : Proc) (a : Fin 8)
    (hf : Kernel.FdChange e fd f) (q : Fin 8) :
    ∃ fds, (s.onFd a fd f).pcb q = { s.pcb q with fileDescriptorTable := fds } ∧
      ∀ g, (fds g).active = ((s.pcb q).fileDescriptorTable g).active ∨
        (fds g).active = 1 ∧ e.isOpen = true ∧ q = a ∨ (fds g).active = 0 ∧ 2 ≤ g.val := by
  by_cases hq : q = a
  · subst hq
    refine ⟨_, Function.update_self .., fun g => ?_⟩
    by_cases hg : g = fd
    · subst hg
      rw [Function.update_self]
      rcases hf ((s.pcb q).fileDescriptorTable g) with h1 | ⟨h1, he⟩ | h1
      · exact .inl h1
      · exact .inr (.inl ⟨h1, he, rfl⟩)
      · exact .inr (.inr h1)
    · rw [Function.update_of_ne hg]; exact .inl rfl
  · exact ⟨_, Function.update_of_ne hq .., fun g => .inl rfl⟩

theorem Owned.onFd {e : Event} {fd b : Fin 8} {f : FileT → FileT} (h : Owned s b)
    (hf : Kernel.FdChange e fd f) : Owned (s.onFd a fd f) b := by
  obtain ⟨fds, hp, hfds⟩ := onFd_pcb s a hf b
  apply h.of_table
  · rw [hp]
  · intro g hg h1
    rw [hp]
    rcases hfds g with h2 | ⟨h2, -⟩ | ⟨-, h2⟩
    · exact h2.trans h1
    · exact h2
    · omega

theorem Sound.onFd {e : Event} {fd : Fin 8} {f : FileT → FileT} (h : Sound s)
    (hf : Kernel.FdChange e fd f) : Sound (s.onFd a fd f) := by
  refine h.mono (fun _ hb => hb.onFd hf) (fun t b hb => .inr hb) fun b q hq => ?_
  obtain ⟨fds, hp, -⟩ := onFd_pcb s a hf b
  rw [hp] at hq
  exact .inr hq

theorem Owned.step {fs : Fs} {k k' : Kernel} {e : Event} {o : Outcome} {b : Fin 8} (h : Owned k.proc b)
    (hs : k.step fs e = some (o, k')) : Owned k'.proc b := by
  cases Kernel.step_cases hs with
  | quiet hh hq =>
    rcases hq.table with hp | ⟨a, fd, f, hd⟩
    · rw [hp]; exact h
    · rw [hd.proc]; exact h.onFd hd.flag
  | child ha hi hp hm ht => rw [hp]; exact h.launch
  | release ha hpar hp hm ht => rw [hp]; exact release_owned (closeAll_owned h)
  | @restart _ a _ status _ _ ha hpar hi hp hm ht =>
    have hc : Owned (k.proc.closeAll a status) b := closeAll_owned h
    rw [hp]
    exact Owned.launch (hc.of_eq rfl)
  | first ha hi hp hm ht => rw [hp]; exact Owned.launch (h.of_eq rfl)
  | switch ha hp hm ht => rw [hp]; exact h.of_eq rfl

theorem sound_step {fs : Fs} {k k' : Kernel} {e : Event} {o : Outcome} (h : Sound k.proc)
    (hs : k.step fs e = some (o, k')) : Sound k'.proc := by
  have hsaved : ∀ esp ebp t, Sound ((k.ticked esp ebp).proc.saveContext t esp ebp) :=
    fun esp ebp t => h.of_pcb rfl fun u b hb => ticked_active_of ((Proc.saveContext_active _ _ u _ _).symm.trans hb)
  cases Kernel.step_cases hs with
  | quiet hh hq =>
    rcases hq.table with hp | ⟨a, fd, f, hd⟩
    · rw [hp]; exact h
    · rw [hd.proc]; exact h.onFd hd.flag
  | child ha hi hp hm ht => rw [hp]; exact h.launch
  | release ha hpar hp hm ht =>
    rw [hp]; exact h.closeAll.release (Proc.closeAll_parent.trans hpar)
  | @restart _ a _ status _ _ ha hpar hi hp hm ht =>
    have hc : Sound (k.proc.closeAll a status) := h.closeAll
    rw [hp]
    exact Sound.launch (hc.of_pcb rfl fun _ _ => releaseRoot_active_of)
  | @first _ i esp ebp _ _ ha hi hp hm ht =>
    rw [hp]
    exact Sound.launch (hsaved esp ebp _)
  | @switch _ a esp ebp _ ha hp hm ht =>
    rw [hp]
    exact (hsaved esp ebp ((k.terminalNum + 1) % 3)).of_pcb rfl fun _ _ hb => hb

theorem sound_boot (p : Paging) (mem : Bytes.Memory) : Sound (Kernel.boot p mem).proc := ⟨nofun, nofun⟩

theorem sound_run {fs : Fs} {q : Paging} {mem : Bytes.Memory} {es : List Event} {k : Kernel}
    (hr : run (Kernel.step fs) (Kernel.boot q mem) es = some k) : Sound k.proc :=
  run_induction (I := fun k => Sound k.proc) sound_step (sound_boot q mem) hr

/-! ## Clean slots -/

/-- Flags are flags, and free slots have nothing open from entry 2 on. -/
structure Clean (s : Proc) : Prop where
  flag : ∀ p fd, ((s.pcb p).fileDescriptorTable fd).active = 0 ∨
    ((s.pcb p).fileDescriptorTable fd).active = 1
  free : ∀ p, s.pidArray p ≠ 1 → ∀ fd : Fin 8, 2 ≤ fd.val →
    ((s.pcb p).fileDescriptorTable fd).active = 0

theorem Clean.launch_table (h : Clean s) (hi : s.freePid = some i) (fd : Fin 8) :
    (((s.launch t i arg esp ebp).pcb i).fileDescriptorTable fd).active = if fd.val < 2 then 1 else 0 := by
  rw [Proc.launch_pcb]
  by_cases h1 : fd = 1
  · subst h1; simp [Proc.newPcb]
  by_cases h0 : fd = 0
  · subst h0; simp [Proc.newPcb]
  have hv1 : fd.val ≠ 1 := fun he => h1 (Fin.ext he)
  have hv0 : fd.val ≠ 0 := fun he => h0 (Fin.ext he)
  rw [if_neg (by omega)]
  simp only [Proc.newPcb, Function.update_of_ne h1, Function.update_of_ne h0]
  exact h.free i (Proc.freePid_free hi) fd (by omega)

theorem Clean.launch (h : Clean s) (hi : s.freePid = some i) : Clean (s.launch t i arg esp ebp) := by
  refine ⟨fun q fd => ?_, fun q hq fd hfd => ?_⟩
  · by_cases hqi : q = i
    · subst hqi
      rw [h.launch_table hi]
      split_ifs <;> simp
    · rw [Proc.launch_pcb_ne hqi]; exact h.flag q fd
  · have hqi : q ≠ i := by
      intro he
      subst he
      simp [Proc.launch] at hq
    rw [Proc.launch_pcb_ne hqi]
    refine h.free q ?_ fd hfd
    simpa [Proc.launch, Function.update_of_ne hqi] using hq

theorem closeAll_flag (s : Proc) (a p fd : Fin 8) (status : UInt8) :
    (((s.closeAll a status).pcb p).fileDescriptorTable fd).active = 0 ∨
    (((s.closeAll a status).pcb p).fileDescriptorTable fd).active =
      ((s.pcb p).fileDescriptorTable fd).active := by
  by_cases hp : p = a
  · subst hp
    simp only [Proc.closeAll, Function.update_self]
    exact closeLoop_active 6 2 _ fd
  · rw [Proc.closeAll_pcb_ne hp]; exact .inr rfl

theorem Clean.closeAll_clean (h : Clean s) (hgap : NoGap 2 (s.pcb a).fileDescriptorTable)
    (fd : Fin 8) (hfd : 2 ≤ fd.val) :
    (((s.closeAll a status).pcb a).fileDescriptorTable fd).active = 0 := by
  simp only [Proc.closeAll, Function.update_self]
  exact closeLoop_clean 6 2 _ rfl (h.flag a) hgap fd hfd

theorem Clean.closeAll (h : Clean s) : Clean (s.closeAll a status) where
  flag := fun p fd => (closeAll_flag s a p fd status).elim .inl fun he => he ▸ h.flag p fd
  free := fun p hp fd hfd => (closeAll_flag s a p fd status).elim id fun he =>
    he.trans (h.free p hp fd hfd)

theorem Clean.release (h : Clean s) (hpid : (s.pcb a).pid = a)
    (hgap : NoGap 2 (s.pcb a).fileDescriptorTable) :
    Clean ((s.closeAll a status).release t a p) := by
  have hc : Clean (s.closeAll a status) := h.closeAll
  have hfds : ∀ q, (((s.closeAll a status).release t a p).pcb q).fileDescriptorTable =
      ((s.closeAll a status).pcb q).fileDescriptorTable := by
    intro q
    obtain ⟨arg, hq⟩ := Proc.release_pcb (s.closeAll a status) t a p q
    rw [hq]
  refine ⟨fun q fd => ?_, fun q hq fd hfd => ?_⟩
  · rw [hfds]; exact hc.flag q fd
  · rw [hfds]
    -- the slot that is freed is the one whose descriptors were closed
    by_cases hqa : q = a
    · subst hqa; exact h.closeAll_clean hgap fd hfd
    · refine hc.free q ?_ fd hfd
      simpa [Proc.release, hpid, Function.update_of_ne hqa] using hq

/-- A process without a parent leaves slot 0 free, so that one must be clean. -/
theorem Clean.releaseRoot (h : Clean s) (hgap : NoGap 2 (s.pcb a).fileDescriptorTable)
    (h0 : a ≠ 0 → ∀ fd : Fin 8, 2 ≤ fd.val → ((s.pcb 0).fileDescriptorTable fd).active = 0) :
    Clean ((s.closeAll a status).releaseRoot t) := by
  have hc : Clean (s.closeAll a status) := h.closeAll
  refine ⟨hc.flag, fun q hq fd hfd => ?_⟩
  change (((s.closeAll a status).pcb q).fileDescriptorTable fd).active = 0
  by_cases hq0 : q = 0
  · subst hq0
    by_cases ha : a = 0
    · subst ha; exact h.closeAll_clean hgap fd hfd
    · rw [Proc.closeAll_pcb_ne (Ne.symm ha)]; exact h0 ha fd hfd
  · refine hc.free q ?_ fd hfd
    simpa [Proc.releaseRoot, Function.update_of_ne hq0] using hq

theorem Clean.of_pcb (h : Clean s) (hp : s'.pcb = s.pcb) (hr : s'.pidArray = s.pidArray) : Clean s' :=
  ⟨by rw [hp]; exact h.flag, by rw [hp, hr]; exact h.free⟩

/-- One descriptor of a slot changes; one that becomes active is of a taken slot. -/
theorem Clean.onFd {e : Event} {fd : Fin 8} {f : FileT → FileT} (h : Clean s)
    (hf : Kernel.FdChange e fd f) (hopen : e.isOpen = true → s.pidArray a = 1) :
    Clean (s.onFd a fd f) := by
  refine ⟨fun q g => ?_, fun q hq g hg => ?_⟩
  · obtain ⟨fds, hp, hfds⟩ := onFd_pcb s a hf q
    rw [hp]
    rcases hfds g with h1 | ⟨h1, -⟩ | ⟨h1, -⟩
    · rw [h1]; exact h.flag q g
    · exact .inr h1
    · exact .inl h1
  · obtain ⟨fds, hp, hfds⟩ := onFd_pcb s a hf q
    rw [hp]
    rcases hfds g with h1 | ⟨-, he, rfl⟩ | ⟨h1, -⟩
    · rw [h1]; exact h.free q hq g hg
    · exact absurd (hopen he) hq
    · exact h1

/-! ## Runs -/

/-- A process halts without a gap in its table, and one without a parent that is not in
slot 0 finds nothing open in slot 0, which it frees; a file is opened only by a
process whose pid is taken. -/
def HaltsClean (k : Kernel) : Event → Prop
  | .halt _ _ => ∀ a, k.active = some a → NoGap 2 (k.proc.pcb a).fileDescriptorTable ∧
      ((k.proc.pcb a).parentPcb = none → a ≠ 0 →
        ∀ fd : Fin 8, 2 ≤ fd.val → ((k.proc.pcb 0).fileDescriptorTable fd).active = 0)
  | .openFile _ _ => ∀ a, k.active = some a → k.proc.pidArray a = 1
  | _ => True

/-- What one step does: the slots stay clean, and a process that was entered has a clean
table. -/
theorem clean_step {fs : Fs} {k k' : Kernel} {e : Event} {o : Outcome} (hsound : Sound k.proc)
    (h : Clean k.proc) (hG : HaltsClean k e) (hs : k.step fs e = some (o, k')) :
    Clean k'.proc ∧ ∀ entry, o = .entered entry → ∀ b, k'.active = some b → ∀ fd : Fin 8,
      ((k'.proc.pcb b).fileDescriptorTable fd).active = if fd.val < 2 then 1 else 0 := by
  have hnew : ∀ {s : Proc} {n : Int} {i : Fin 8} {arg : List UInt8} {esp ebp : Nat}, Clean s →
      s.freePid = some i → k'.terminalNum = n → k'.proc = s.launch n i arg esp ebp →
      Clean k'.proc ∧ ∀ entry, o = .entered entry → ∀ b, k'.active = some b → ∀ fd : Fin 8,
        ((k'.proc.pcb b).fileDescriptorTable fd).active = if fd.val < 2 then 1 else 0 := by
    intro s n i arg esp ebp hc hi hn hp
    refine ⟨hp ▸ hc.launch hi, fun _ _ b hb fd => ?_⟩
    obtain rfl : b = i := Option.some.inj (hb.symm.trans (Kernel.active_launched hp hn))
    rw [hp]; exact hc.launch_table hi fd
  cases Kernel.step_cases hs with
  | quiet hh hq =>
    obtain ⟨v, data, rfl⟩ := hq.returned
    refine ⟨?_, nofun⟩
    rcases hq.table with hp | ⟨a, fd, f, hd⟩
    · rw [hp]; exact h
    · rw [hd.proc]
      refine h.onFd hd.flag fun he => ?_
      cases e with
      | openFile filename past => exact hG a hd.active
      | _ => cases he
  | child ha hi hp hm ht => exact hnew h hi ht hp
  | @release _ a p status env ha hpar hp hm ht =>
    refine ⟨?_, nofun⟩
    rw [hp]
    exact h.release (hsound.active _ a ha).pid (hG a ha).1
  | @restart _ a i status env entry ha hpar hi hp hm ht =>
    exact hnew (h.releaseRoot (hG a ha).1 ((hG a ha).2 hpar)) hi ht hp
  | @first _ i esp ebp _ _ ha hi hp hm ht =>
    have hc : Clean (k.readied esp ebp).proc := h.of_pcb rfl rfl
    exact hnew hc hi ht hp
  | switch ha hp hm ht =>
    refine ⟨?_, nofun⟩
    rw [hp]
    exact h.of_pcb rfl rfl

theorem clean_boot (p : Paging) (mem : Bytes.Memory) : Clean (Kernel.boot p mem).proc where
  flag := fun _ _ => .inl rfl
  free := fun _ _ _ _ => rfl

instance (n : Nat) (fds : Fin 8 → FileT) : Decidable (NoGap n fds) :=
  inferInstanceAs (Decidable (∀ f g : Fin 8, n ≤ f.val → f < g → (fds f).active = 0 → (fds g).active = 0))

instance (k : Kernel) : (e : Event) → Decidable (HaltsClean k e)
  | .halt _ _ => inferInstanceAs (Decidable (∀ a, k.active = some a →
      NoGap 2 (k.proc.pcb a).fileDescriptorTable ∧ ((k.proc.pcb a).parentPcb = none → a ≠ 0 →
        ∀ fd : Fin 8, 2 ≤ fd.val → ((k.proc.pcb 0).fileDescriptorTable fd).active = 0)))
  | .openFile _ _ => inferInstanceAs (Decidable (∀ a, k.active = some a → k.proc.pidArray a = 1))
  | .tick _ _ _ | .key _ | .controlL | .altF _ | .rtc | .execute _ _ | .read _ _ _ | .write _ _ _
  | .close _ | .getargs _ _ | .vidmap _ | .store _ _ => .isTrue trivial

/-- A child opens a file twice and closes one of the two descriptors before it halts. -/
def openTwiceClose (fd : Int) : List Event :=
  [.tick 0 0 zeroEnv, .execute (some (ascii "shell")) zeroEnv, .openFile (some (ascii "data")) true,
    .openFile (some (ascii "data")) true, .close fd, .halt 0 zeroEnv]

end Flipit
