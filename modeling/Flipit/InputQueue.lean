import Flipit.Scheduler

/- The input side of a single terminal: lines go in with Enter and come out with
   `terminal_read`.

   `Ledger` is the specification's record: the line as a reference editor has it, all
   bytes submitted so far and all bytes returned so far. The queue holds what is
   submitted and not yet returned as long as every read shifts completely
   (`ledger_ok_step`, `reads_return_submitted`): the shifting loop moves as many bytes
   as were taken, so where more are left than that, those behind stay where they are.
   A read of one byte out of a line of two is enough to lose the newline
   (`reads_repeat_byte`). -/
namespace Flipit
open Machine Typed Input

/-- What moves the driver's data: keys, visible switches, ticks and the reads of the
running process. -/
inductive Act where
  | key (c : UInt8)
  | altF (dest : Fin 3)
  | tick (esp ebp : Nat) (env : ExecEnv)
  | read (buf : Nat) (nbytes : Int)

/-- One of them, with the bytes a read stores. -/
def Kernel.act (fs : Fs) (k : Kernel) : Act → Option (List UInt8 × Kernel)
  | .key c => (k.addToBuffer c).map fun k => ([], k)
  | .altF dest => (k.termVisibleSwitch dest).map fun k => ([], k)
  | .tick esp ebp env => (k.scheduler fs env esp ebp).map fun r => ([], r.2)
  | .read buf nbytes =>
    if k.active.isSome then (k.terminalRead buf nbytes).map fun r => (r.1.2, r.2) else none

/-- The reference: the line being typed, and what has gone in and come out. -/
structure Ledger where
  typed : List UInt8
  submitted : List UInt8
  returned : List UInt8

def Ledger.record (l : Ledger) : Act → List UInt8 → Ledger
  | .key c, _ =>
    if c = 0x0A then { l with typed := [], submitted := l.submitted ++ (l.typed ++ [c]) }
    else { l with typed := edit l.typed c }
  | .read _ _, data => { l with returned := l.returned ++ data }
  | _, _ => l

/-- The kernel with the record. -/
def actLedger (fs : Fs) : Kernel × Ledger → Act → Option (List UInt8 × (Kernel × Ledger)) :=
  ghost (Kernel.act fs) fun _ a data _ l => l.record a data

/-- A key, or a read into a buffer. -/
def Act.Single : Act → Prop
  | .key _ => True
  | .read buf nbytes => buf ≠ 0 ∧ 0 ≤ nbytes
  | _ => False

/-- The line fits the queue of 640 bytes, and each unread byte that the shifting loop of a
read does not move equals the one that belongs in its place. -/
def Complete (s : Kernel × Ledger) : Act → Prop
  | .key c => c = 0x0A → s.1.input.unread.length + (s.2.typed.length + 1) ≤ 640
  | .read _ nbytes =>
    Shifted s.1.input.unread (takeLine s.1.input.unread nbytes.toNat).length
  | _ => True

/-- Nothing typed and nothing submitted yet, as the first tick leaves it. -/
structure Fresh (inp : Input UInt8) (t : Int) : Prop where
  position : inp.commandPosition = 0
  line : (inp.line t).bufPosition = 0
  flag : (inp.line t).commandReadyFlag = -1

/-- The driver's data is what the record says. -/
structure LedgerOk (t : Int) (s : Kernel × Ledger) : Prop where
  scheduled : s.1.terminalNum = t
  visible : s.1.currentVisible = t
  typed : (s.1.input.line t).content = s.2.typed
  position : 0 ≤ s.1.input.commandPosition
  queue : s.2.returned ++ s.1.input.unread = s.2.submitted
  ready : (s.1.input.line t).commandReadyFlag ≠ -1 → ∃ c ∈ s.1.input.unread, code c = 0x0A

variable {fs : Fs} {k k' : Kernel} {t : Int} {l : Ledger} {data : List UInt8}

theorem fresh_first_tick {p : Paging} {mem : Bytes.Memory} {esp ebp : Nat} {env : ExecEnv} {o : Outcome}
    (hs : (Kernel.boot p mem).scheduler fs env esp ebp = some (o, k)) :
    k.terminalNum = 0 ∧ k.currentVisible = 0 ∧ Fresh k.input 0 := by
  rcases Kernel.scheduler_cases hs with ⟨-, i, entry, n, a, bytes, -, -, -, rfl⟩ | ⟨a, -, -, rfl⟩
  · exact ⟨rfl, rfl, rfl, rfl, rfl⟩
  · exact ⟨rfl, rfl, rfl, rfl, rfl⟩

/-! ## One step -/

theorem LedgerOk.key (h : LedgerOk t (k, l)) {c : UInt8} (hs : k.addToBuffer c = some k') :
    LedgerOk t (k', l.record (.key c) []) := by
  obtain ⟨hsched, hvis, htyped, hpos, hqueue, hready⟩ := h
  dsimp only at hsched hvis htyped hpos hqueue hready
  subst hvis
  obtain ⟨m, cur, rfl⟩ := Kernel.addToBuffer_frame hs
  by_cases hc : c = 0x0A
  · -- Enter: the line goes to the end of the queue
    have hcode : code c = 0x0A := hc
    obtain ⟨hu, hp, hl, -, -⟩ := addToBuffer_enter (v := k.currentVisible) hcode hpos
    have hr : l.record (.key c) [] =
        { l with typed := [], submitted := l.submitted ++ (l.typed ++ [c]) } := if_pos hc
    rw [hr]
    refine ⟨hsched, rfl, hl, ?_, ?_, fun _ => ⟨c, ?_, hc⟩⟩
    · dsimp only
      rw [hp]; omega
    · dsimp only
      rw [hu, htyped, ← hqueue, List.append_assoc]
    · dsimp only
      rw [hu]; simp
  · have hcode : code c ≠ 0x0A := hc
    obtain ⟨hb, hp, hl, hf, -⟩ := addToBuffer_edit (v := k.currentVisible) hcode
    have hu : (k.input.addToBuffer k.currentVisible c).1.unread = k.input.unread := by rw [unread, hb, hp]; rfl
    have hr : l.record (.key c) [] = { l with typed := edit l.typed c } := if_neg hc
    rw [hr]
    refine ⟨hsched, rfl, ?_, ?_, ?_, ?_⟩
    · dsimp only
      rw [hl, htyped]
    · dsimp only
      rw [hp]; exact hpos
    · dsimp only
      rw [hu]; exact hqueue
    · dsimp only
      rw [hu, hf]; exact hready

/-- A read that completes returns the first line of the queue, or `nbytes` of it. -/
theorem LedgerOk.read_eq (h : LedgerOk t (k, l)) {buf : Nat} {nbytes : Int} (hbuf : buf ≠ 0)
    (hn : 0 ≤ nbytes) {ret : Int} (hs : k.terminalRead buf nbytes = some ((ret, data), k')) :
    let taken := takeLine k.input.unread nbytes.toNat
    ret = taken.length ∧ data = taken ∧ k' = { k with
      input := (k.input.shift taken.length).onLine t fun l => { l with commandReadyFlag := -1 } } := by
  intro taken
  obtain rfl : k.terminalNum = t := h.scheduled
  have hflag : (k.input.line k.terminalNum).commandReadyFlag ≠ -1 := by
    intro hwait
    simp [Kernel.terminalRead, terminalRead, hwait, hbuf, Int.not_lt.mpr hn] at hs
  obtain ⟨n, rfl⟩ := Int.eq_ofNat_of_zero_le hn
  have hread := terminalRead_eq (n := n) hbuf hflag (h.ready hflag)
  rw [Kernel.terminalRead, hread, Option.map_some] at hs
  obtain ⟨hq, rfl⟩ := Prod.mk.inj (Option.some.inj hs)
  obtain ⟨rfl, rfl⟩ := Prod.mk.inj hq
  exact ⟨rfl, rfl, rfl⟩

theorem LedgerOk.read (h : LedgerOk t (k, l)) {buf : Nat} {nbytes : Int} (hbuf : buf ≠ 0)
    (hn : 0 ≤ nbytes) {ret : Int}
    (hshift : Shifted k.input.unread (takeLine k.input.unread nbytes.toNat).length)
    (hs : k.terminalRead buf nbytes = some ((ret, data), k')) :
    LedgerOk t (k', { l with returned := l.returned ++ data }) := by
  obtain ⟨-, rfl, rfl⟩ := h.read_eq hbuf hn hs
  obtain ⟨hsched, hvis, htyped, hpos, hqueue, hready⟩ := h
  dsimp only at hsched hvis htyped hpos hqueue hready
  -- what the read took is gone from the front, and only that
  have hdrop := shift_unread_drop hshift
  have hp := takeLine_start k.input.unread nbytes.toNat
  have hle := hp.length_le
  generalize takeLine k.input.unread nbytes.toNat = taken at hdrop hp hle
  rw [unread_length] at hle
  refine ⟨hsched, hvis, ?_, ?_, ?_, fun hf => ?_⟩
  · dsimp only
    rw [onLine_line, shift_eq]; exact htyped
  · dsimp only [onLine_commandPosition]
    rw [shift_eq]; dsimp only; omega
  · dsimp only
    obtain ⟨rest, hrest⟩ := hp
    have hleft : k.input.unread.drop taken.length = rest := by rw [← hrest, List.drop_left]
    calc (l.returned ++ taken) ++ (k.input.shift taken.length).unread
        = (l.returned ++ taken) ++ rest := by rw [hdrop, hleft]
      _ = l.returned ++ k.input.unread := by rw [List.append_assoc, hrest]
      _ = l.submitted := hqueue
  · dsimp only at hf
    rw [onLine_line] at hf
    exact absurd rfl hf

theorem ledger_ok_step {s : Kernel × Ledger} {a : Act} {r : List UInt8 × (Kernel × Ledger)}
    (h : LedgerOk t s) (hG : a.Single ∧ Complete s a) (hs : actLedger fs s a = some r) :
    LedgerOk t r.2 := by
  obtain ⟨k, l⟩ := s
  obtain ⟨out, s'⟩ := r
  obtain ⟨k', hk, rfl⟩ := ghost_eq_some.mp hs
  cases a with
  | key c =>
    obtain ⟨rfl, h1⟩ := map_answer.mp hk
    exact h.key h1
  | read buf nbytes =>
    simp only [Kernel.act] at hk
    split_ifs at hk
    obtain ⟨⟨⟨ret, data⟩, k1⟩, h1, h2⟩ := Option.map_eq_some_iff.mp hk
    obtain ⟨rfl, rfl⟩ := Prod.mk.inj h2
    exact h.read hG.1.1 hG.1.2 hG.2 h1
  | altF dest => exact hG.1.elim
  | tick esp ebp env => exact hG.1.elim

/-! ## Runs -/

/-- In every run of keys and completed reads in one terminal, from fresh data, in which the
lines fit the queue and every read shifts completely: what the reads returned is the
start of what was submitted, `command_position` counts the rest, and the next read
returns the rest up to its first newline or to `nbytes` bytes. -/
theorem reads_return_submitted (fs : Fs) (k0 : Kernel) (acts : List Act) (k : Kernel) (l : Ledger)
    (hone : k0.terminalNum = k0.currentVisible) (hfresh : Fresh k0.input k0.currentVisible)
    (hacts : ∀ a ∈ acts, a.Single) (hr : run (actLedger fs) (k0, ⟨[], [], []⟩) acts = some (k, l))
    (hG : Meets (actLedger fs) Complete (k0, ⟨[], [], []⟩) acts) :
    l.returned <+: l.submitted ∧
    k.input.commandPosition = l.submitted.length - l.returned.length ∧
    ∀ buf nbytes ret data k', buf ≠ 0 → 0 ≤ nbytes →
      k.terminalRead buf nbytes = some ((ret, data), k') →
      data = takeLine (l.submitted.drop l.returned.length) nbytes.toNat ∧ ret = data.length := by
  have hstart : LedgerOk k0.currentVisible (k0, ⟨[], [], []⟩) :=
    { scheduled := hone
      visible := rfl
      typed := by simp [Line.content, hfresh.line]
      position := by rw [hfresh.position]
      queue := by simp [unread, hfresh.position]
      ready := fun hf => absurd hfresh.flag hf }
  have h : LedgerOk k0.currentVisible (k, l) :=
    run_invariant ledger_ok_step hstart ((Meets.of_forall hacts).and hG) hr
  have hqueue : l.returned ++ k.input.unread = l.submitted := h.queue
  have hpos : 0 ≤ k.input.commandPosition := h.position
  refine ⟨⟨_, hqueue⟩, ?_, fun buf nbytes ret data k' hbuf hn hs => ?_⟩
  · have hlen := congrArg List.length hqueue
    rw [List.length_append, unread_length] at hlen
    omega
  · obtain ⟨hret, hdata, -⟩ := h.read_eq hbuf hn hs
    rw [← hqueue, List.drop_left]
    exact ⟨hdata, by rw [hret, hdata]⟩

instance {α : Type} [DecidableEq α] (q : List α) (i : Nat) : Decidable (Shifted q i) :=
  decidable_of_iff (∀ j, j < q.length - i → i ≤ j → q[j]? = q[j + i]?)
    ⟨fun h j hi hj => h j hj hi, fun h j hj hi => h j hi hj⟩

instance (s : Kernel × Ledger) : (a : Act) → Decidable (Complete s a)
  | .key c => inferInstanceAs (Decidable
      (c = 0x0A → s.1.input.unread.length + (s.2.typed.length + 1) ≤ 640))
  | .read _ nbytes => inferInstanceAs (Decidable
      (Shifted s.1.input.unread (takeLine s.1.input.unread nbytes.toNat).length))
  | .altF _ | .tick _ _ _ => .isTrue trivial

def typeText (s : String) : List Act := (ascii s).map .key

/-- Two lines are typed, the second one with a correction, and each is read. -/
def twoLines : List Act :=
  typeText "ls\n" ++ [.read localBuf 128] ++ typeText "ca\x08d\n" ++ [.read localBuf 128]

theorem reads_return_submitted_lines :
    ∃ o k0 k l, (Kernel.boot linkedPaging fun _ => 0).scheduler smallFs zeroEnv 0 0 = some (o, k0) ∧
      run (actLedger smallFs) (k0, ⟨[], [], []⟩) twoLines = some (k, l) ∧
      l.submitted = ascii "ls\ncd\n" ∧ l.returned <+: l.submitted ∧
      k.input.commandPosition = l.submitted.length - l.returned.length := by
  have hrun : (((Kernel.boot linkedPaging fun _ => 0).scheduler smallFs zeroEnv 0 0).bind fun r =>
      (run (actLedger smallFs) (r.2, ⟨[], [], []⟩) twoLines).map fun s =>
        (s.2.submitted, decide (Meets (actLedger smallFs) Complete (r.2, ⟨[], [], []⟩) twoLines))) =
      some (ascii "ls\ncd\n", true) := by decide +kernel
  obtain ⟨⟨o, k0⟩, h0, hrun⟩ := Option.bind_eq_some_iff.mp hrun
  obtain ⟨⟨k, l⟩, hr, hq⟩ := Option.map_eq_some_iff.mp hrun
  obtain ⟨hsub, hG⟩ := Prod.mk.inj hq
  obtain ⟨hn, hv, hfresh⟩ := fresh_first_tick h0
  have hacts : ∀ a ∈ twoLines, a.Single := by
    simp [twoLines, typeText, Act.Single, localBuf, ascii]
  have h := reads_return_submitted smallFs k0 twoLines k l (hn.trans hv.symm) (by rw [hv]; exact hfresh)
    hacts hr (of_decide_eq_true hG)
  exact ⟨o, k0, k, l, h0, hr, hsub, h.1, h.2.1⟩

/-- A read of one byte out of `ab` moves one byte of the two that are left, so the next line
comes out with the `b` twice. -/
theorem reads_repeat_byte :
    ∃ o k0 k l, (Kernel.boot linkedPaging fun _ => 0).scheduler smallFs zeroEnv 0 0 = some (o, k0) ∧
      k0.terminalNum = k0.currentVisible ∧
      run (actLedger smallFs) (k0, ⟨[], [], []⟩)
        (typeText "ab\n" ++ [.read localBuf 1] ++ typeText "\n" ++ [.read localBuf 128]) = some (k, l) ∧
      l.submitted = ascii "ab\n\n" ∧ l.returned = ascii "abb\n" ∧ ¬ l.returned <+: l.submitted := by
  have hrun : (((Kernel.boot linkedPaging fun _ => 0).scheduler smallFs zeroEnv 0 0).bind fun r =>
      (run (actLedger smallFs) (r.2, ⟨[], [], []⟩)
        (typeText "ab\n" ++ [.read localBuf 1] ++ typeText "\n" ++ [.read localBuf 128])).map fun s =>
          (s.2.submitted, s.2.returned)) = some (ascii "ab\n\n", ascii "abb\n") := by decide +kernel
  obtain ⟨⟨o, k0⟩, h0, hrun⟩ := Option.bind_eq_some_iff.mp hrun
  obtain ⟨⟨k, l⟩, hr, hq⟩ := Option.map_eq_some_iff.mp hrun
  obtain ⟨hsub, hret⟩ := Prod.mk.inj hq
  obtain ⟨hn, hv, -⟩ := fresh_first_tick h0
  refine ⟨o, k0, k, l, h0, hn.trans hv.symm, hr, hsub, hret, ?_⟩
  rw [hsub, hret]
  decide

end Flipit
