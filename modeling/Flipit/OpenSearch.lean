import Flipit.Scheduler

/- The search of `open` for a free descriptor.

   The loop goes on while `fds[fd].active` is not zero and has no bound of its own; the
   range of `fd` is tested when it has stopped. Behind the eight entries of the table it
   reads the fields of the block that lie there: `fds[8].active` is `parent_pcb`,
   `fds[9].active` to `fds[16].active` are words of the argument string, and from
   `fds[17]` on it is memory behind the block (`activeWord`). `openSearch` is the loop over
   these words, and `openFile_isSome_iff` ties it to `openFile`: `open` returns exactly if
   the search stops.

   With an inactive entry in the table the search stays inside and `open` does what it
   should; with a full table it leaves the table, whatever lies behind
   (`open_contract_iff`). -/
namespace Flipit
open Machine Bytes

/-! ## The loop -/

/-- The indices a search has looked at, and the one it stopped at. -/
structure Search where
  examined : List Nat
  stopped : Option Nat

/-- The first `fuel` turns of the loop from index `fd` on. -/
def openSearch (active : Nat → Nat) : Nat → Nat → Search
  | 0, _ => ⟨[], none⟩
  | fuel + 1, fd =>
    if active fd ≠ 0 then
      let r := openSearch active fuel (fd + 1)
      ⟨fd :: r.examined, r.stopped⟩
    else ⟨[fd], some fd⟩

/-- The address of a block. -/
def pcbAddress : Option (Fin 8) → Nat
  | none => 0
  | some q => 0x800000 - (q.val + 1) * 0x2000

/-- `fds[i].active`, for any index: an entry of the table, then what lies behind it in the
block, and behind the block. -/
def activeWord (p : Pcb) (behind : Nat → Nat) (i : Nat) : Nat :=
  if h : i < 8 then (p.fileDescriptorTable ⟨i, h⟩).active
  else if i = 8 then pcbAddress p.parentPcb
  else if i ≤ 16 then word p.arg (4 + 16 * (i - 9))
  else behind i

section
variable {active : Nat → Nat} {fuel fd n i : Nat}

theorem mem_examined : i ∈ (openSearch active fuel fd).examined ↔
    fd ≤ i ∧ i < fd + fuel ∧ ∀ j, fd ≤ j → j < i → active j ≠ 0 := by
  induction fuel generalizing fd with
  | zero =>
    simp only [openSearch, List.not_mem_nil, false_iff]
    omega
  | succ fuel ih =>
    rw [openSearch]
    split
    · rename_i hfd
      rw [List.mem_cons, ih]
      constructor
      · intro h
        rcases h with rfl | ⟨hle, hlt, hall⟩
        · exact ⟨le_refl _, by omega, fun j hj hj' => by omega⟩
        · refine ⟨by omega, by omega, fun j hj hj' => ?_⟩
          rcases Nat.eq_or_lt_of_le hj with rfl | hj
          · exact hfd
          · exact hall j hj hj'
      · intro h
        obtain ⟨hle, hlt, hall⟩ := h
        rcases Nat.eq_or_lt_of_le hle with rfl | hle
        · exact .inl rfl
        · exact .inr ⟨hle, by omega, fun j hj hj' => hall j (by omega) hj'⟩
    · rename_i hfd
      rw [List.mem_singleton]
      constructor
      · intro h
        subst h
        exact ⟨le_refl _, by omega, fun j hj hj' => by omega⟩
      · intro h
        obtain ⟨hle, -, hall⟩ := h
        by_contra hne
        exact hfd (hall fd (le_refl _) (by omega))

theorem stopped_iff : (openSearch active fuel fd).stopped = some n ↔
    n ∈ (openSearch active fuel fd).examined ∧ active n = 0 := by
  induction fuel generalizing fd with
  | zero => simp [openSearch]
  | succ fuel ih =>
    rw [openSearch]
    split
    · rename_i hfd
      rw [List.mem_cons, ih]
      constructor
      · intro h
        exact ⟨.inr h.1, h.2⟩
      · intro h
        obtain ⟨rfl | hmem, h0⟩ := h
        · exact absurd h0 hfd
        · exact ⟨hmem, h0⟩
    · rename_i hfd
      rw [List.mem_singleton, Option.some.injEq]
      constructor
      · intro h
        subst h
        exact ⟨rfl, not_not.mp hfd⟩
      · intro h
        exact h.1.symm

end

/-! ## The loop and `open` -/

section
variable {p : Pcb} {behind : Nat → Nat} {fd : Fin 8}

theorem activeWord_table (p : Pcb) (behind : Nat → Nat) (fd : Fin 8) :
    activeWord p behind fd.val = (p.fileDescriptorTable fd).active := by
  rw [activeWord, dif_pos fd.isLt]

theorem firstInactive_eq_some {fds : Fin 8 → FileT} : Kernel.firstInactive fds = some fd ↔
    (fds fd).active = 0 ∧ ∀ g < fd, (fds g).active ≠ 0 := by
  rw [Kernel.firstInactive, ← Fin.find?_eq_find?_finRange, Fin.find?_eq_some_iff]
  simp

theorem firstInactive_eq_none {fds : Fin 8 → FileT} : Kernel.firstInactive fds = none ↔
    ∀ g, (fds g).active ≠ 0 := by
  rw [Kernel.firstInactive, List.find?_eq_none]
  simp

theorem stopped_firstInactive : (openSearch (activeWord p behind) 8 0).stopped = some fd.val ↔
    Kernel.firstInactive p.fileDescriptorTable = some fd := by
  rw [stopped_iff, mem_examined, activeWord_table, firstInactive_eq_some]
  constructor
  · intro h
    obtain ⟨⟨-, -, hall⟩, h0⟩ := h
    refine ⟨h0, fun g hg => ?_⟩
    rw [← activeWord_table p behind]
    exact hall g.val (Nat.zero_le _) hg
  · intro h
    obtain ⟨h0, hall⟩ := h
    refine ⟨⟨Nat.zero_le _, by omega, fun j _ hj => ?_⟩, h0⟩
    have := hall ⟨j, by omega⟩ hj
    rwa [← activeWord_table p behind] at this

end

variable {fs : Fs} {k : Kernel} {a : Fin 8} {filename : Option (List UInt8)}

/-- The entry `open` writes for a name: none if the lookup fails or the type is no file
type. -/
def openedEntry (fs : Fs) (filename : Option (List UInt8)) : Option FileT :=
  let l := readDentryByName fs filename Dentry.local 0
  if l.ret ≥ 0 then
    match l.dentry.fileType with
    | 0 => some ⟨some .rtc, 0, 0, 1⟩
    | 1 => some ⟨some .dir, 0, 0, 1⟩
    | 2 => some ⟨some .file, l.dentry.inode, 0, 1⟩
    | _ => none
  else none

theorem openFile_of_free (fs : Fs) (filename : Option (List UInt8)) (past : Bool) {fd : Fin 8}
    (ha : k.active = some a)
    (hfd : Kernel.firstInactive (k.proc.pcb a).fileDescriptorTable = some fd) :
    (∀ f, openedEntry fs filename = some f → ∃ k',
      Kernel.openFile fs filename past k = some (.returned fd.val [], k') ∧
      k'.proc = k.proc.onFd a fd fun _ => f) ∧
    (openedEntry fs filename = none → ∃ k',
      Kernel.openFile fs filename past k = some (.returned (-1) [], k') ∧ k'.proc = k.proc) := by
  have hlookup : ∀ n, (readDentryByName fs filename Dentry.local n).ret =
      (readDentryByName fs filename Dentry.local 0).ret ∧
      (readDentryByName fs filename Dentry.local n).dentry =
        (readDentryByName fs filename Dentry.local 0).dentry := by
    intro n
    cases filename with
    | none => exact ⟨rfl, rfl⟩
    | some s =>
      rw [Kernel.readDentryByName_eq fs s Dentry.local n 0]
      exact ⟨rfl, rfl⟩
  obtain ⟨hret, hdentry⟩ := hlookup k.fnameLength
  simp only [openedEntry, Kernel.openFile, ha, Option.bind_some, hfd, hret, hdentry]
  generalize readDentryByName fs filename Dentry.local k.fnameLength = l at hret hdentry
  generalize readDentryByName fs filename Dentry.local 0 = d
  by_cases hfound : d.ret ≥ 0
  · rw [if_pos hfound, if_pos hfound]
    rcases d.dentry.fileType with _ | _ | _ | n
    · refine ⟨fun f hf => ?_, fun hf => by simp at hf⟩
      obtain rfl := Option.some.inj hf
      exact ⟨_, rfl, rfl⟩
    · refine ⟨fun f hf => ?_, fun hf => by simp at hf⟩
      obtain rfl := Option.some.inj hf
      exact ⟨_, rfl, rfl⟩
    · refine ⟨fun f hf => ?_, fun hf => by simp at hf⟩
      obtain rfl := Option.some.inj hf
      exact ⟨_, rfl, rfl⟩
    · exact ⟨fun f hf => by simp at hf, fun _ => ⟨_, rfl, rfl⟩⟩
  · rw [if_neg hfound, if_neg hfound]
    exact ⟨fun f hf => by simp at hf, fun _ => ⟨_, rfl, rfl⟩⟩

/-- `open` returns exactly if its search stops, where `past` says what it meets behind the
table. -/
theorem openFile_isSome_iff (fs : Fs) (filename : Option (List UInt8)) {past : Bool}
    {behind : Nat → Nat} (ha : k.active = some a)
    (hpast : past = true ↔
      ∃ fuel n, (openSearch (activeWord (k.proc.pcb a) behind) fuel 0).stopped = some n) :
    (Kernel.openFile fs filename past k).isSome ↔
      ∃ fuel n, (openSearch (activeWord (k.proc.pcb a) behind) fuel 0).stopped = some n := by
  cases hf : Kernel.firstInactive (k.proc.pcb a).fileDescriptorTable with
  | none =>
    rw [← hpast, Kernel.openFile, ha, Option.bind_some, hf]
    cases past with
    | false => simp
    | true => simp [Kernel.ret]
  | some fd =>
    have hstop : ∃ fuel n, (openSearch (activeWord (k.proc.pcb a) behind) fuel 0).stopped = some n :=
      ⟨8, fd.val, stopped_firstInactive.mpr hf⟩
    simp only [hstop, iff_true]
    cases hentry : openedEntry fs filename with
    | none =>
      obtain ⟨k', hk', -⟩ := (openFile_of_free fs filename past ha hf).2 hentry
      rw [hk']
      rfl
    | some f =>
      obtain ⟨k', hk', -⟩ := (openFile_of_free fs filename past ha hf).1 f hentry
      rw [hk']
      rfl

/-! ## The contract -/

/-- What `open` should do for process `a`: the search stays inside the table; with an
inactive entry and a name of type 0, 1 or 2 it fills the least one and returns it; in every
other case it returns -1 and the table stays. -/
structure OpenContract (fs : Fs) (k : Kernel) (a : Fin 8) (filename : Option (List UInt8)) : Prop where
  inside : ∀ behind fuel, ∀ i ∈ (openSearch (activeWord (k.proc.pcb a) behind) fuel 0).examined, i < 8
  opened : ∀ past (fd : Fin 8) f, ((k.proc.pcb a).fileDescriptorTable fd).active = 0 →
    (∀ g < fd, ((k.proc.pcb a).fileDescriptorTable g).active ≠ 0) → openedEntry fs filename = some f →
    ∃ k', Kernel.openFile fs filename past k = some (.returned fd.val [], k') ∧
      k'.proc = k.proc.onFd a fd fun _ => f
  refused : ∀ past, (∀ fd, ((k.proc.pcb a).fileDescriptorTable fd).active ≠ 0) ∨
    openedEntry fs filename = none →
    ∃ k', Kernel.openFile fs filename past k = some (.returned (-1) [], k') ∧ k'.proc = k.proc

/-- In every state and for every name `open` meets the contract exactly if some entry of the
table is inactive. -/
theorem open_contract_iff (fs : Fs) (filename : Option (List UInt8)) (ha : k.active = some a) :
    OpenContract fs k a filename ↔ ∃ fd, ((k.proc.pcb a).fileDescriptorTable fd).active = 0 := by
  constructor
  · intro h
    by_contra hfull
    -- all eight are active, so the search looks at index 8
    have hmem : 8 ∈ (openSearch (activeWord (k.proc.pcb a) fun _ => 0) 9 0).examined := by
      refine mem_examined.mpr ⟨Nat.zero_le _, by omega, fun j _ hj h0 => hfull ⟨⟨j, hj⟩, ?_⟩⟩
      rw [← activeWord_table _ fun _ => 0]
      exact h0
    exact absurd (h.inside _ _ 8 hmem) (lt_irrefl 8)
  · intro hex
    cases hf : Kernel.firstInactive (k.proc.pcb a).fileDescriptorTable with
    | none =>
      obtain ⟨fd, h0⟩ := hex
      exact absurd h0 (firstInactive_eq_none.mp hf fd)
    | some fd =>
      obtain ⟨hfd, hleast⟩ := firstInactive_eq_some.mp hf
      refine ⟨fun behind fuel i hi => ?_, fun past g f hg hmin hentry => ?_, fun past hno => ?_⟩
      · obtain ⟨-, -, hall⟩ := mem_examined.mp hi
        by_contra hge
        apply hall fd.val (Nat.zero_le _) (by omega)
        rw [activeWord_table, hfd]
      · obtain rfl : fd = g := Option.some.inj (hf.symm.trans (firstInactive_eq_some.mpr ⟨hg, hmin⟩))
        exact (openFile_of_free fs filename past ha hf).1 f hentry
      · rcases hno with hfull | hnone
        · exact absurd hfd (hfull fd)
        · exact (openFile_of_free fs filename past ha hf).2 hnone

/-- The first shell, which has six free entries, opens `data`. -/
theorem open_contract_iff_shell :
    ∃ k, run (Kernel.step smallFs) (Kernel.boot linkedPaging fun _ => 0) [.tick 0 0 zeroEnv] = some k ∧
      OpenContract smallFs k 0 (some (ascii "data")) := by
  have hrun : (run (Kernel.step smallFs) (Kernel.boot linkedPaging fun _ => 0)
      [.tick 0 0 zeroEnv]).map (fun k => (k.active, ((k.proc.pcb 0).fileDescriptorTable 2).active)) =
      some (some 0, 0) := by decide +kernel
  obtain ⟨k, hk, hq⟩ := Option.map_eq_some_iff.mp hrun
  obtain ⟨ha, hfree⟩ := Prod.mk.inj hq
  exact ⟨k, hk, (open_contract_iff smallFs _ ha).mpr ⟨2, hfree⟩⟩

/-- After six opens the table is full, and the search for the seventh goes on behind it, to
`parent_pcb`. -/
theorem open_search_leaves_table :
    ∃ k, run (Kernel.step smallFs) (Kernel.boot linkedPaging fun _ => 0)
        (.tick 0 0 zeroEnv :: List.replicate 6 (.openFile (some (ascii "data")) true)) = some k ∧
      k.active = some 0 ∧
      8 ∈ (openSearch (activeWord (k.proc.pcb 0) fun _ => 0) 9 0).examined ∧
      ¬ OpenContract smallFs k 0 (some (ascii "data")) := by
  have hrun : (run (Kernel.step smallFs) (Kernel.boot linkedPaging fun _ => 0)
      (.tick 0 0 zeroEnv :: List.replicate 6 (.openFile (some (ascii "data")) true))).map (fun k =>
        (k.active, (openSearch (activeWord (k.proc.pcb 0) fun _ => 0) 9 0).examined)) =
      some (some 0, [0, 1, 2, 3, 4, 5, 6, 7, 8]) := by decide +kernel
  obtain ⟨k, hk, hq⟩ := Option.map_eq_some_iff.mp hrun
  obtain ⟨ha, hexamined⟩ := Prod.mk.inj hq
  have hmem : 8 ∈ (openSearch (activeWord (k.proc.pcb 0) fun _ => 0) 9 0).examined := by
    rw [hexamined]
    decide
  exact ⟨k, hk, ha, hmem, fun h => absurd (h.inside _ _ 8 hmem) (lt_irrefl 8)⟩

end Flipit
