import Flipit.InputQueue
import Mathlib.Data.List.Chain

/- Where the bytes of a read were typed.

   The driver is run a second time, in step with the kernel, on bytes that carry the
   terminal they were typed into. The functions are the same ones, and they do not
   look at the tag: the tagged data projects to the kernel's at every step
   (`tagged_act`), so a tag says where the kernel's own byte came from.

   Lines of all terminals go through one queue. What keeps them apart is the order of
   events alone: if a read finds its own terminal's byte at the front of the queue,
   and shifts completely where bytes of others are queued, then it returns only bytes
   of its own terminal and leaves the others' alone (`reads_stay_home`). Two lines
   entered in two terminals and read in the other order break it
   (`read_takes_other_line`). -/
namespace Flipit
open Machine Typed Input

/-- A byte and the terminal it was typed into. -/
abbrev Tagged := UInt8 × Int

instance : Typed Tagged := ⟨Prod.fst, (0, -1)⟩

/-! ## The driver does not look at tags -/

section Naturality
variable {α β : Type}

def Line.map (f : α → β) (l : Line α) : Line β :=
  ⟨f ∘ l.keyboardBuffer, l.bufPosition, l.commandReadyFlag⟩

def Input.map (f : α → β) (inp : Input α) : Input β :=
  ⟨f ∘ inp.commandBuf, inp.commandPosition, fun t => (inp.line t).map f⟩

variable (f : α → β)

theorem map_put (l : Line α) (c : α) : (l.put c).map f = (l.map f).put (f c) := by
  simp [Line.map, Line.put, Function.comp_update]

theorem map_onLine {h : Line α → Line α} (h' : Line β → Line β) (hh : ∀ l, (h l).map f = h' (l.map f))
    (inp : Input α) (t : Int) : (inp.onLine t h).map f = (inp.map f).onLine t h' := by
  have hline : (fun u => ((Function.update inp.line t (h (inp.line t))) u).map f) =
      Function.update (fun u => (inp.line u).map f) t (h' ((inp.line t).map f)) := by
    rw [← hh]
    exact Function.comp_update (Line.map f) inp.line t _
  simp only [Input.map, onLine, hline]

theorem map_enqueue (inp : Input α) (c : α) : (inp.enqueue c).map f = (inp.map f).enqueue (f c) := by
  simp [Input.map, enqueue, Function.comp_update]

theorem map_copyCommandBuffer (inp : Input α) (v : Int) :
    (inp.copyCommandBuffer v).map f = (inp.map f).copyCommandBuffer v := by
  unfold copyCommandBuffer
  exact (List.foldl_hom (Input.map f) fun s i => (map_enqueue f s _).symm).symm

theorem map_shift (inp : Input α) (i : Nat) : (inp.shift i).map f = (inp.map f).shift i := by
  unfold shift
  refine (List.foldl_hom (Input.map f) fun s j => ?_).symm
  simp [Input.map, shiftOne, Function.comp_update]

variable [Typed α] [Typed β] {f}

theorem map_clearBuffer (hnull : f null = null) (l : Line α) : l.clearBuffer.map f = (l.map f).clearBuffer := by
  simp only [Line.map, Line.clearBuffer, Line.mk.injEq, and_true]
  funext i
  by_cases hi : i < l.bufPosition
  · simp [hi, hnull]
  · simp [hi]

theorem map_addToBuffer (hcode : ∀ x, code (f x) = code x) (hnull : f null = null) (inp : Input α)
    (v : Int) (c : α) :
    (inp.map f).addToBuffer v (f c) = ((inp.addToBuffer v c).1.map f, (inp.addToBuffer v c).2) := by
  have herase : ∀ l : Line α, l.erase.map f = (l.map f).erase := by
    intro l
    simp [Line.map, Line.erase, Function.comp_update, hnull]
  have hpos : ((inp.map f).line v).bufPosition = (inp.line v).bufPosition := rfl
  simp only [addToBuffer, hcode, hpos]
  split
  · rw [map_onLine f _ (map_clearBuffer hnull), map_onLine f (fun l => { l with commandReadyFlag := 1 }) fun _ => rfl,
      map_copyCommandBuffer, map_onLine f (fun l => l.put (f c)) fun l => map_put f l c]
  · split
    · split
      · rw [map_onLine f _ herase]
      · rfl
    · split
      · rfl
      · rw [map_onLine f (fun l => l.put (f c)) fun l => map_put f l c]

theorem map_readLoop (hcode : ∀ x, code (f x) = code x) (buf : Int → α) (n i : Nat) :
    readLoop (f ∘ buf) n i = readLoop buf n i := by
  induction n generalizing i with
  | zero => rfl
  | succ n ih => simp only [readLoop, Function.comp_apply, hcode, ih]

theorem map_terminalRead (hcode : ∀ x, code (f x) = code x) (inp : Input α) (t : Int) (buf : Nat)
    (nbytes : Int) :
    (inp.map f).terminalRead t buf nbytes =
      (inp.terminalRead t buf nbytes).map fun q => (q.1, q.2.1.map f, q.2.2.map f) := by
  have hloop : readLoop (inp.map f).commandBuf nbytes.toNat 0 =
      readLoop inp.commandBuf nbytes.toNat 0 := map_readLoop hcode inp.commandBuf _ _
  have hflag : ((inp.map f).line t).commandReadyFlag = (inp.line t).commandReadyFlag := rfl
  simp only [terminalRead, hloop, hflag]
  split
  · rfl
  · split
    · rfl
    · split
      · rfl
      · rw [Option.map_some, map_onLine f (fun l => { l with commandReadyFlag := -1 }) fun _ => rfl,
          map_shift, List.map_map]
        rfl

end Naturality

/-! ## The tagged run -/

def Input.bytes (g : Input Tagged) : Input UInt8 := g.map Prod.fst

/-- The first tick resets the lines. -/
def Kernel.tickLines {α : Type} (k : Kernel) (g : Input α) : Input α :=
  { g with
    line := fun t => if k.fresh t then ⟨(g.line t).keyboardBuffer, 0, -1⟩ else g.line t }

/-- The driver's part of an action, on bytes that are marked as they are typed. -/
def Kernel.drive {α : Type} [Typed α] (k : Kernel) (mark : UInt8 → α) (g : Input α) :
    Act → Option (List α × Input α)
  | .key c => some ([], (g.addToBuffer k.currentVisible (mark c)).1)
  | .altF _ => some ([], g)
  | .tick _ _ _ => some ([], k.tickLines g)
  | .read buf nbytes => (g.terminalRead k.terminalNum buf nbytes).map fun q => (q.2.1, q.2.2)

/-- The actions on the driver's data, with Ctrl+L. -/
inductive QueueAct where
  | act (a : Act)
  | controlL

def Kernel.queue (fs : Fs) (k : Kernel) : QueueAct → Option (List UInt8 × Kernel)
  | .act a => k.act fs a
  | .controlL => k.controlL.map fun k => ([], k)

/-- The driver's part of an action, on tagged data: a key carries the visible terminal. -/
def Kernel.tagged (k : Kernel) (g : Input Tagged) : QueueAct → Option (List Tagged × Input Tagged)
  | .act a => k.drive (fun c => (c, k.currentVisible)) g a
  | .controlL => some ([], g.onLine k.currentVisible Line.clearBuffer)

/-- The kernel and the tagged data, in step. -/
def actTagged (fs : Fs) (s : Kernel × Input Tagged) (a : QueueAct) :
    Option (List Tagged × (Kernel × Input Tagged)) :=
  (s.1.queue fs a).bind fun r => (s.1.tagged s.2 a).map fun q => (q.1, (r.2, q.2))

/-- The driver's data before anything was typed: nobody's zeros. -/
def untyped : Input Tagged := ⟨fun _ => null, 0, fun _ => ⟨fun _ => null, 0, 0⟩⟩

variable {fs : Fs} {k k' : Kernel} {g g' : Input Tagged} {t : Int}

/-- What an action changes of the data the driver sees. -/
def Kernel.Acted (k k' : Kernel) (data : List UInt8) : Act → Prop
  | .key c => data = [] ∧ k'.input = (k.input.addToBuffer k.currentVisible c).1 ∧
      k'.terminalNum = k.terminalNum ∧ k'.proc = k.proc
  | .altF _ => data = [] ∧ k'.input = k.input ∧ k'.terminalNum = k.terminalNum ∧ k'.proc = k.proc
  | .tick _ _ _ => data = [] ∧ k'.input = k.tickLines k.input ∧
      k'.terminalNum = (k.terminalNum + 1) % 3
  | .read buf nbytes => (∃ b, k.active = some b) ∧
      (∃ ret, k.input.terminalRead k.terminalNum buf nbytes = some (ret, data, k'.input)) ∧
      k'.terminalNum = k.terminalNum ∧ k'.proc = k.proc

theorem act_cases {a : Act} {data : List UInt8} (h : k.act fs a = some (data, k')) :
    k.Acted k' data a := by
  cases a with
  | key c =>
    obtain ⟨rfl, h1⟩ := map_answer.mp h
    obtain ⟨m, cur, rfl⟩ := Kernel.addToBuffer_frame h1
    exact ⟨rfl, rfl, rfl, rfl⟩
  | altF dest =>
    obtain ⟨rfl, h1⟩ := map_answer.mp h
    obtain ⟨m, rfl⟩ := Kernel.termVisibleSwitch_frame h1
    exact ⟨rfl, rfl, rfl, rfl⟩
  | tick esp ebp env =>
    obtain ⟨⟨o, k1⟩, h1, h2⟩ := Option.map_eq_some_iff.mp h
    obtain ⟨rfl, rfl⟩ := Prod.mk.inj h2
    rcases Kernel.scheduler_cases h1 with ⟨-, i, entry, n, a, bytes, -, -, -, rfl⟩ | ⟨a, -, -, hk⟩
    · exact ⟨rfl, rfl, rfl⟩
    · rw [hk]
      exact ⟨rfl, rfl, rfl⟩
  | read buf nbytes =>
    simp only [Kernel.act] at h
    split_ifs at h with hact
    obtain ⟨⟨⟨ret, d⟩, k1⟩, h1, h2⟩ := Option.map_eq_some_iff.mp h
    obtain ⟨rfl, rfl⟩ := Prod.mk.inj h2
    obtain ⟨⟨ret', d', inp⟩, h3, h4⟩ := Option.map_eq_some_iff.mp h1
    obtain ⟨hq, rfl⟩ := Prod.mk.inj h4
    obtain ⟨rfl, rfl⟩ := Prod.mk.inj hq
    exact ⟨Option.isSome_iff_exists.mp hact, ⟨ret', h3⟩, rfl, rfl⟩

theorem drive_act {α : Type} [Typed α] {x : Input α} (mark : UInt8 → α) (hnull : code (null : α) = 0)
    (hmark : ∀ c, code (mark c) = c) {a : Act} {data : List UInt8} (hx : x.map code = k.input)
    (h : k.act fs a = some (data, k')) :
    ∃ out x', k.drive mark x a = some (out, x') ∧ out.map code = data ∧ x'.map code = k'.input := by
  have hc := act_cases h
  cases a with
  | key c =>
    obtain ⟨rfl, hi, -, -⟩ := hc
    refine ⟨[], _, rfl, rfl, ?_⟩
    have hmap := map_addToBuffer (f := (code : α → UInt8)) (fun _ => rfl) hnull x k.currentVisible (mark c)
    rw [hmark, hx] at hmap
    rw [hi]
    exact (congrArg Prod.fst hmap).symm
  | altF dest =>
    obtain ⟨rfl, hi, -, -⟩ := hc
    exact ⟨[], x, rfl, rfl, by rw [hi, hx]⟩
  | tick esp ebp env =>
    obtain ⟨rfl, hi, -⟩ := hc
    refine ⟨[], _, rfl, rfl, ?_⟩
    rw [hi, ← hx]
    simp only [Input.map, Kernel.tickLines, Input.mk.injEq, true_and]
    funext u
    split
    · rfl
    · rfl
  | read buf nbytes =>
    obtain ⟨-, ⟨ret, hr⟩, -, -⟩ := hc
    have hmap := map_terminalRead (f := (code : α → UInt8)) (fun _ => rfl) x k.terminalNum buf nbytes
    rw [← hx, hmap] at hr
    obtain ⟨q, hq, he⟩ := Option.map_eq_some_iff.mp hr
    simp only [Prod.mk.injEq] at he
    obtain ⟨rfl, rfl, hi⟩ := he
    exact ⟨q.2.1, q.2.2, by simp [Kernel.drive, hq], rfl, hi⟩

theorem queue_controlL {data : List UInt8} (h : k.queue fs .controlL = some (data, k')) :
    data = [] ∧ k'.input = k.input.onLine k.currentVisible Line.clearBuffer ∧
      k'.terminalNum = k.terminalNum ∧ k'.proc = k.proc := by
  rw [Kernel.queue] at h
  obtain ⟨rfl, h1⟩ := map_answer.mp h
  obtain ⟨k1, h2, rfl⟩ := Option.map_eq_some_iff.mp h1
  obtain ⟨⟨m, cur⟩, -, rfl⟩ := Option.map_eq_some_iff.mp h2
  exact ⟨rfl, rfl, rfl, rfl⟩

theorem tagged_act {a : QueueAct} {data : List UInt8} (hg : g.bytes = k.input)
    (h : k.queue fs a = some (data, k')) :
    ∃ out g', k.tagged g a = some (out, g') ∧ out.map Prod.fst = data ∧ g'.bytes = k'.input := by
  cases a with
  | act a => exact drive_act (fun c => (c, k.currentVisible)) rfl (fun _ => rfl) hg h
  | controlL =>
    obtain ⟨rfl, hi, -, -⟩ := queue_controlL h
    refine ⟨[], _, rfl, rfl, ?_⟩
    rw [hi, ← hg]
    exact map_onLine Prod.fst Line.clearBuffer (map_clearBuffer (f := Prod.fst) rfl) g k.currentVisible

/-! ## What keeps the terminals apart -/

/-- Neighbours in the queue are of one terminal, or a line ends between them. -/
def Neighbours (x y : Tagged) : Prop := x.2 = y.2 ∨ x.1 = 0x0A

/-- Enter finds room in the queue of 640 bytes, and the queue empty, ended by a newline or by
a byte of the same terminal. A read finds a byte of its terminal at the front of the
queue, and its shift is complete or there are no bytes of other terminals. -/
def InTurn (s : Kernel × Input Tagged) : QueueAct → Prop
  | .act (.key c) => c = 0x0A →
      s.2.unread.length + ((s.2.line s.1.currentVisible).content.length + 1) ≤ 640 ∧
      ∀ x, s.2.unread.getLast? = some x → x.1 = 0x0A ∨ x.2 = s.1.currentVisible
  | .act (.read buf nbytes) => buf ≠ 0 → 0 < nbytes →
      (∀ x, s.2.unread.head? = some x → x.2 = s.1.terminalNum) ∧
      (Shifted s.2.unread (takeLine s.2.unread nbytes.toNat).length ∨
        ∀ x ∈ s.2.unread, x.2 = s.1.terminalNum)
  | _ => True

/-- The tagged data projects to the kernel's; a line holds its terminal's bytes, the queue is
made of lines, and a terminal whose flag is up has a line in it. -/
structure Apart (s : Kernel × Input Tagged) : Prop where
  bytes : s.2.bytes = s.1.input
  range : -1 ≤ s.1.terminalNum ∧ s.1.terminalNum ≤ 2
  idle : s.1.terminalNum = -1 → ∀ t, s.1.proc.active t = none
  lines : ∀ t, ∀ x ∈ (s.2.line t).content, x.2 = t
  position : 0 ≤ s.2.commandPosition
  queue : s.2.unread.IsChain Neighbours
  ready : 0 ≤ s.1.terminalNum → ∀ t, 0 ≤ t ∧ t ≤ 2 → (s.2.line t).commandReadyFlag ≠ -1 →
    ∃ x ∈ s.2.unread, x.1 = 0x0A ∧ x.2 = t

theorem chain_of_all {q : List Tagged} (h : ∀ x ∈ q, x.2 = t) : q.IsChain Neighbours := by
  refine List.Pairwise.isChain ?_
  refine List.pairwise_of_forall_mem_list fun x hx y hy => .inl ?_
  rw [h x hx, h y hy]

theorem mem_edit {s : List Tagged} {c x : Tagged} (h : x ∈ edit s c) : x ∈ s ∨ x = c := by
  unfold edit at h
  split at h
  · exact .inl (List.dropLast_subset s h)
  · split at h
    · exact .inl h
    · simpa using h

/-- From a byte of `t` at the front a read meets bytes of `t` up to the first newline. -/
theorem takeLine_tag {q : List Tagged} {n : Nat} (hq : q.IsChain Neighbours)
    (hhead : ∀ x, q.head? = some x → x.2 = t) : ∀ x ∈ takeLine q n, x.2 = t := by
  induction q generalizing n with
  | nil => cases n <;> simp [takeLine]
  | cons c q ih =>
    cases n with
    | zero => simp [takeLine]
    | succ n =>
      have hc : c.2 = t := hhead c rfl
      rw [takeLine]
      split
      · intro x hx
        rw [List.mem_singleton.mp hx, hc]
      · rename_i hnl
        intro x hx
        rcases List.mem_cons.mp hx with rfl | hx
        · exact hc
        · rw [List.isChain_cons] at hq
          refine ih hq.2 (fun y hy => ?_) x hx
          rcases hq.1 y hy with h | h
          · rw [← h, hc]
          · exact absurd h hnl

/-- A read of `n` bytes into a buffer by the scheduled terminal, whose flag is up. -/
structure TakesLine (s : Kernel × Input Tagged) (n : Nat) (out : List Tagged) (g' : Input Tagged) :
    Prop where
  taken : out = takeLine s.2.unread n
  data : g' = (s.2.shift out.length).onLine s.1.terminalNum fun l => { l with commandReadyFlag := -1 }

theorem Apart.read (h : Apart (k, g)) {buf : Nat} {nbytes : Int} {ret : Int} {out : List Tagged}
    {b : Fin 8} (hb : k.active = some b)
    (hs : g.terminalRead k.terminalNum buf nbytes = some (ret, out, g')) :
    (out = [] ∧ g' = g) ∨ buf ≠ 0 ∧ 0 ≤ nbytes ∧ (0 ≤ k.terminalNum ∧ k.terminalNum ≤ 2) ∧
      TakesLine (k, g) nbytes.toNat out g' := by
  have hrange : -1 ≤ k.terminalNum ∧ k.terminalNum ≤ 2 := h.range
  have hterm : 0 ≤ k.terminalNum := by
    by_contra hneg
    have hidle := h.idle (show k.terminalNum = -1 by omega) k.terminalNum
    rw [← Kernel.active, hb] at hidle
    cases hidle
  rcases terminalRead_cases hs with ⟨-, rfl, rfl⟩ | ⟨hn, hbuf, hflag, -, -⟩
  · exact .inl ⟨rfl, rfl⟩
  obtain ⟨x, hx, hnl, -⟩ := h.ready hterm k.terminalNum ⟨hterm, hrange.2⟩ hflag
  obtain ⟨n, rfl⟩ := Int.eq_ofNat_of_zero_le hn
  have hread := terminalRead_eq (n := n) hbuf hflag ⟨x, hx, hnl⟩
  rw [hread] at hs
  simp only [Option.some.injEq, Prod.mk.injEq] at hs
  obtain ⟨-, rfl, rfl⟩ := hs
  exact .inr ⟨hbuf, by omega, ⟨hterm, hrange.2⟩, rfl, rfl⟩

/-- In turn, a read takes bytes of its terminal and leaves those of the others. -/
theorem TakesLine.home {n : Nat} {out : List Tagged} (h : TakesLine (k, g) n out g')
    (hq : g.unread.IsChain Neighbours)
    (hturn : 0 < n → (∀ x, g.unread.head? = some x → x.2 = k.terminalNum) ∧
      (Shifted g.unread (takeLine g.unread n).length ∨ ∀ x ∈ g.unread, x.2 = k.terminalNum)) :
    (∀ x ∈ out, x.2 = k.terminalNum) ∧
    (g'.unread = g.unread.drop out.length ∨
      (∀ x ∈ g.unread, x.2 = k.terminalNum) ∧ ∀ x ∈ g'.unread, x.2 = k.terminalNum) := by
  obtain ⟨rfl, rfl⟩ := h
  dsimp only
  rw [onLine_unread]
  by_cases hn : n = 0
  · subst hn
    have hnil : takeLine g.unread 0 = [] := by cases g.unread <;> rfl
    rw [hnil]
    exact ⟨by simp, .inl (shift_unread_drop fun j _ _ => rfl)⟩
  · obtain ⟨hhead, hshift⟩ := hturn (by omega)
    refine ⟨takeLine_tag hq hhead, ?_⟩
    rcases hshift with hshift | hall
    · exact .inl (shift_unread_drop hshift)
    · exact .inr ⟨hall, fun x hx => hall x (mem_shift_unread hx)⟩

theorem Apart.of_line (h : Apart (k, g)) (hbytes : g'.bytes = k'.input)
    (hn : k'.terminalNum = k.terminalNum) (hp : k'.proc = k.proc)
    (hlines : ∀ t, ∀ x ∈ (g'.line t).content, x.2 = t) (hu : g'.unread = g.unread)
    (hpos : g'.commandPosition = g.commandPosition)
    (hflag : ∀ u, (g'.line u).commandReadyFlag = (g.line u).commandReadyFlag) : Apart (k', g') where
  bytes := hbytes
  range := by rw [hn]; exact h.range
  idle := by rw [hn, hp]; exact h.idle
  lines := hlines
  position := by rw [hpos]; exact h.position
  queue := by rw [hu]; exact h.queue
  ready := by simp only [hn, hu, hflag]; exact h.ready

theorem Apart.key (h : Apart (k, g)) {c : UInt8} (hG : InTurn (k, g) (.act (.key c)))
    (hn : k'.terminalNum = k.terminalNum) (hp : k'.proc = k.proc)
    (hbytes : (g.addToBuffer k.currentVisible (c, k.currentVisible)).1.bytes = k'.input) :
    Apart (k', (g.addToBuffer k.currentVisible (c, k.currentVisible)).1) := by
  have hlines : ∀ t, ∀ x ∈ (g.line t).content, x.2 = t := h.lines
  by_cases hc : c = 0x0A
  · -- Enter: the line, all of one terminal, goes to the end of the queue
    have hcode : code (c, k.currentVisible) = 0x0A := hc
    have hpos : 0 ≤ g.commandPosition := h.position
    obtain ⟨hu, hp', hl, -, hother⟩ := addToBuffer_enter (v := k.currentVisible) hcode hpos
    generalize (g.addToBuffer k.currentVisible (c, k.currentVisible)).1 = g' at hu hp' hl hother hbytes
    have hline : ∀ x ∈ (g.line k.currentVisible).content ++ [(c, k.currentVisible)],
        x.2 = k.currentVisible := by
      intro x hx
      rcases List.mem_append.mp hx with hx | hx
      · exact hlines _ x hx
      · rw [List.mem_singleton.mp hx]
    refine ⟨hbytes, by rw [hn]; exact h.range, by rw [hn, hp]; exact h.idle, fun t x hx => ?_, ?_, ?_,
      fun h0 t ht hf => ?_⟩
    · by_cases htv : t = k.currentVisible
      · subst htv
        rw [hl] at hx
        cases hx
      · rw [hother t htv] at hx
        exact hlines t x hx
    · dsimp only
      rw [hp']; omega
    · dsimp only
      rw [hu, List.isChain_append]
      refine ⟨h.queue, chain_of_all hline, fun x hx y hy => ?_⟩
      rcases (hG hc).2 x hx with hnl | htag
      · exact .inr hnl
      · exact .inl (by rw [htag, hline y (List.mem_of_mem_head? hy)])
    · dsimp only at hf ⊢
      rw [hu]
      by_cases htv : t = k.currentVisible
      · exact ⟨(c, t), by simp [htv], hc, rfl⟩
      · rw [hother t htv] at hf
        rw [hn] at h0
        obtain ⟨x, hx, hnl, htag⟩ := h.ready h0 t ht hf
        exact ⟨x, List.mem_append_left _ hx, hnl, htag⟩
  · have hcode : code (c, k.currentVisible) ≠ 0x0A := hc
    obtain ⟨hb, hpos, hl, hf, hother⟩ := addToBuffer_edit (v := k.currentVisible) hcode
    refine h.of_line hbytes hn hp (fun t x hx => ?_) ?_ hpos hf
    · by_cases htv : t = k.currentVisible
      · subst htv
        rw [hl] at hx
        rcases mem_edit hx with hx | rfl
        · exact hlines _ x hx
        · rfl
      · rw [hother t htv] at hx
        exact hlines t x hx
    · rw [unread, hb, hpos]; rfl

theorem Apart.takesLine (h : Apart (k, g)) {n : Nat} {out : List Tagged} (ht : TakesLine (k, g) n out g')
    (hhome : (∀ x ∈ out, x.2 = k.terminalNum) ∧
      (g'.unread = g.unread.drop out.length ∨
        (∀ x ∈ g.unread, x.2 = k.terminalNum) ∧ ∀ x ∈ g'.unread, x.2 = k.terminalNum))
    (hn : k'.terminalNum = k.terminalNum) (hp : k'.proc = k.proc) (hbytes : g'.bytes = k'.input) :
    Apart (k', g') := by
  obtain ⟨hout, hleft⟩ := hhome
  have hstart : out <+: g.unread := by rw [ht.taken]; exact takeLine_start _ _
  have hle := hstart.length_le
  rw [unread_length] at hle
  have hcontent : ∀ u, (g'.line u).content = (g.line u).content := by
    intro u
    rw [ht.data, shift_eq]
    by_cases hu : u = k.terminalNum
    · subst hu; rw [onLine_line]; rfl
    · rw [onLine_line_ne hu]
  refine ⟨hbytes, by rw [hn]; exact h.range, by rw [hn, hp]; exact h.idle, fun t x hx => ?_, ?_, ?_,
    fun h0 t htr hf => ?_⟩
  · dsimp only at hx
    rw [hcontent] at hx
    exact h.lines t x hx
  · have hpos : 0 ≤ g.commandPosition := h.position
    dsimp only
    rw [ht.data, onLine_commandPosition, shift_eq]
    dsimp only
    omega
  · dsimp only
    rcases hleft with hdrop | ⟨-, hall⟩
    · rw [hdrop]; exact List.IsChain.drop h.queue _
    · -- an incomplete shift leaves bytes of one terminal
      exact chain_of_all hall
  · dsimp only at hf ⊢
    -- the reader's own flag is down now
    have htn : t ≠ k.terminalNum := by
      intro he
      subst he
      rw [ht.data, onLine_line] at hf
      exact hf rfl
    rw [ht.data, onLine_line_ne htn, shift_eq] at hf
    rw [hn] at h0
    obtain ⟨x, hx, hnl, htag⟩ := h.ready h0 t htr hf
    refine ⟨x, ?_, hnl, htag⟩
    rcases hleft with hdrop | ⟨hall, -⟩
    · -- the line of another terminal is behind what the read took
      obtain ⟨rest, hrest⟩ := hstart
      dsimp only at hx
      rw [hdrop, ← hrest, List.drop_left]
      rw [← hrest] at hx
      rcases List.mem_append.mp hx with hx | hx
      · exact absurd (htag.symm.trans (hout x hx)) htn
      · exact hx
    · exact absurd (htag.symm.trans (hall x hx)) htn

theorem Apart.tick (h : Apart (k, g)) (hn : k'.terminalNum = (k.terminalNum + 1) % 3)
    (hbytes : (k.tickLines g).bytes = k'.input) : Apart (k', k.tickLines g) := by
  have hrange : -1 ≤ k.terminalNum ∧ k.terminalNum ≤ 2 := h.range
  refine ⟨hbytes, ?_, ?_, fun t x hx => ?_, h.position, h.queue, fun h0 t ht hf => ?_⟩
  · dsimp only; omega
  · intro hidle
    dsimp only at hidle
    omega
  · simp only [Kernel.tickLines] at hx
    split at hx
    · simp [Line.content] at hx
    · exact h.lines t x hx
  · dsimp only [Kernel.tickLines] at hf
    split at hf
    · exact absurd rfl hf
    · rename_i hfresh
      refine h.ready ?_ t ht hf
      -- the first tick resets all three flags
      have hterm : isTerm t = true := isTerm_of_range ht
      simp only [Kernel.fresh, hterm, Bool.and_true, beq_iff_eq] at hfresh
      dsimp only
      omega

theorem Apart.read_home (h : Apart (k, g)) {buf : Nat} {nbytes ret : Int} {out : List Tagged} {b : Fin 8}
    (hG : InTurn (k, g) (.act (.read buf nbytes))) (hb : k.active = some b)
    (hs : g.terminalRead k.terminalNum buf nbytes = some (ret, out, g'))
    (hn : k'.terminalNum = k.terminalNum) (hp : k'.proc = k.proc) (hbytes : g'.bytes = k'.input) :
    Apart (k', g') ∧ (∀ x ∈ out, x.2 = k.terminalNum) ∧
    g'.unread.filter (fun x => x.2 ≠ k.terminalNum) =
      g.unread.filter (fun x => x.2 ≠ k.terminalNum) := by
  rcases h.read hb hs with ⟨rfl, rfl⟩ | ⟨hbuf, hn0, -, ht⟩
  · exact ⟨h.of_line hbytes hn hp h.lines rfl rfl fun _ => rfl, by simp, rfl⟩
  · have hhome := ht.home h.queue fun hpos => hG hbuf (by omega)
    refine ⟨h.takesLine ht hhome hn hp hbytes, hhome.1, ?_⟩
    have hnone : ∀ {q : List Tagged}, (∀ x ∈ q, x.2 = k.terminalNum) →
        q.filter (fun x => x.2 ≠ k.terminalNum) = [] := by
      intro q hq
      rw [List.filter_eq_nil_iff]
      intro x hx
      simp [hq x hx]
    rcases hhome.2 with hdrop | ⟨hall, hall'⟩
    · have hstart : out <+: g.unread := by rw [ht.taken]; exact takeLine_start _ _
      obtain ⟨rest, hrest⟩ := hstart
      have hleft : g'.unread = rest := by rw [hdrop, ← hrest, List.drop_left]
      calc g'.unread.filter (fun x => x.2 ≠ k.terminalNum)
          = out.filter (fun x => x.2 ≠ k.terminalNum) ++ rest.filter fun x => x.2 ≠ k.terminalNum := by
            rw [hnone hhome.1, List.nil_append, hleft]
        _ = g.unread.filter fun x => x.2 ≠ k.terminalNum := by rw [← List.filter_append, hrest]
    · rw [hnone hall, hnone hall']

theorem Apart.clears (h : Apart (k, g)) (hn : k'.terminalNum = k.terminalNum) (hp : k'.proc = k.proc)
    (hbytes : (g.onLine k.currentVisible Line.clearBuffer).bytes = k'.input) :
    Apart (k', g.onLine k.currentVisible Line.clearBuffer) := by
  refine h.of_line hbytes hn hp (fun t x hx => ?_) (onLine_unread ..) (onLine_commandPosition ..) fun u => ?_
  · by_cases ht : t = k.currentVisible
    · subst ht
      rw [onLine_line, Line.content_clearBuffer] at hx
      cases hx
    · rw [onLine_line_ne ht] at hx
      exact h.lines t x hx
  · by_cases hu : u = k.currentVisible
    · subst hu
      rw [onLine_line]
      rfl
    · rw [onLine_line_ne hu]

theorem apart_step {s : Kernel × Input Tagged} {a : QueueAct} {r : List Tagged × (Kernel × Input Tagged)}
    (h : Apart s) (hG : InTurn s a) (hs : actTagged fs s a = some r) : Apart r.2 := by
  obtain ⟨k, g⟩ := s
  obtain ⟨⟨data, k'⟩, hk, hs⟩ := Option.bind_eq_some_iff.mp hs
  obtain ⟨⟨out, g'⟩, hg, rfl⟩ := Option.map_eq_some_iff.mp hs
  obtain ⟨out', g'', hg', -, hbytes⟩ := tagged_act h.bytes hk
  obtain ⟨rfl, rfl⟩ := Prod.mk.inj (Option.some.inj (hg.symm.trans hg'))
  cases a with
  | controlL =>
    obtain ⟨-, -, hn, hp⟩ := queue_controlL hk
    obtain ⟨-, rfl⟩ := Prod.mk.inj (Option.some.inj hg)
    exact h.clears hn hp hbytes
  | act a =>
    have hc := act_cases hk
    cases a with
    | key c =>
      obtain ⟨-, rfl⟩ := Prod.mk.inj (Option.some.inj hg)
      exact h.key hG hc.2.2.1 hc.2.2.2 hbytes
    | altF dest =>
      obtain ⟨-, rfl⟩ := Prod.mk.inj (Option.some.inj hg)
      exact h.of_line hbytes hc.2.2.1 hc.2.2.2 h.lines rfl rfl fun _ => rfl
    | tick esp ebp env =>
      obtain ⟨-, rfl⟩ := Prod.mk.inj (Option.some.inj hg)
      exact h.tick hc.2.2 hbytes
    | read buf nbytes =>
      obtain ⟨⟨b, hb⟩, -, hn, hp⟩ := hc
      obtain ⟨⟨ret, d, g1⟩, hr, he⟩ := Option.map_eq_some_iff.mp hg
      obtain ⟨rfl, rfl⟩ := Prod.mk.inj he
      exact (h.read_home hG hb hr hn hp hbytes).1

theorem apart_boot (p : Paging) (mem : Bytes.Memory) : Apart (Kernel.boot p mem, untyped) where
  bytes := rfl
  range := by simp [Kernel.boot]
  idle := fun _ _ => rfl
  lines := nofun
  position := Int.le_refl 0
  queue := .nil
  ready := by simp [Kernel.boot]

theorem tagged_run {acts : List QueueAct} (hg : g.bytes = k.input)
    (hr : run (Kernel.queue fs) k acts = some k') :
    ∃ g', run (actTagged fs) (k, g) acts = some (k', g') ∧ g'.bytes = k'.input := by
  induction acts generalizing k g with
  | nil =>
    obtain rfl : k = k' := Option.some.inj hr
    exact ⟨g, rfl, hg⟩
  | cons a acts ih =>
    obtain ⟨⟨data, k1⟩, hk, hr⟩ := run_cons.mp hr
    obtain ⟨out, g1, hg1, -, hbytes⟩ := tagged_act hg hk
    obtain ⟨g', hr', hg'⟩ := ih hbytes hr
    refine ⟨g', run_cons.mpr ⟨(out, (k1, g1)), ?_, hr'⟩, hg'⟩
    simp [actTagged, hk, hg1]

/-- In every run of keys, Ctrl+L, visible switches, ticks and reads from boot in which Enters
and reads come in turn: a read in terminal t returns only bytes typed into t and leaves the
unread bytes of the other terminals as they are. -/
theorem reads_stay_home (fs : Fs) (p : Paging) (mem : Bytes.Memory) (acts : List QueueAct) (k k' : Kernel)
    (g g' : Input Tagged) (buf : Nat) (nbytes : Int) (out : List Tagged)
    (hr : run (actTagged fs) (Kernel.boot p mem, untyped) acts = some (k, g))
    (hG : Meets (actTagged fs) InTurn (Kernel.boot p mem, untyped) (acts ++ [.act (.read buf nbytes)]))
    (hs : actTagged fs (k, g) (.act (.read buf nbytes)) = some (out, (k', g'))) :
    (g.bytes = k.input ∧ ∃ ret, k.terminalRead buf nbytes = some ((ret, out.map Prod.fst), k')) ∧
    (∀ x ∈ out, x.2 = k.terminalNum) ∧
    g'.unread.filter (fun x => x.2 ≠ k.terminalNum) =
      g.unread.filter (fun x => x.2 ≠ k.terminalNum) := by
  obtain ⟨hG, hlast, -⟩ := (meets_append hr).mp hG
  have h : Apart (k, g) := run_invariant apart_step (apart_boot p mem) hG hr
  obtain ⟨⟨data, k1⟩, hk, hs⟩ := Option.bind_eq_some_iff.mp hs
  obtain ⟨⟨out1, g1⟩, hg, he⟩ := Option.map_eq_some_iff.mp hs
  simp only [Prod.mk.injEq] at he
  obtain ⟨rfl, rfl, rfl⟩ := he
  obtain ⟨out', g'', hg', hdata, hbytes⟩ := tagged_act h.bytes hk
  obtain ⟨rfl, rfl⟩ := Prod.mk.inj (Option.some.inj (hg.symm.trans hg'))
  have hk : k.act fs (.read buf nbytes) = some (data, k1) := hk
  obtain ⟨⟨b, hb⟩, -, hn, hp⟩ := act_cases hk
  obtain ⟨⟨ret, d, g2⟩, hread, he⟩ := Option.map_eq_some_iff.mp hg
  obtain ⟨rfl, rfl⟩ := Prod.mk.inj he
  refine ⟨⟨h.bytes, ?_⟩, (h.read_home hlast hb hread hn hp hbytes).2⟩
  simp only [Kernel.act] at hk
  split_ifs at hk
  obtain ⟨⟨⟨ret', d'⟩, k2⟩, h1, h2⟩ := Option.map_eq_some_iff.mp hk
  obtain ⟨rfl, rfl⟩ := Prod.mk.inj h2
  exact ⟨ret', by rw [h1, hdata]⟩

instance (s : Kernel × Input Tagged) : (a : QueueAct) → Decidable (InTurn s a)
  | .act (.key c) => inferInstanceAs (Decidable (c = 0x0A →
      s.2.unread.length + ((s.2.line s.1.currentVisible).content.length + 1) ≤ 640 ∧
      ∀ x, s.2.unread.getLast? = some x → x.1 = 0x0A ∨ x.2 = s.1.currentVisible))
  | .act (.read buf nbytes) => inferInstanceAs (Decidable (buf ≠ 0 → 0 < nbytes →
      (∀ x, s.2.unread.head? = some x → x.2 = s.1.terminalNum) ∧
      (Shifted s.2.unread (takeLine s.2.unread nbytes.toNat).length ∨
        ∀ x ∈ s.2.unread, x.2 = s.1.terminalNum)))
  | .act (.altF _) | .act (.tick _ _ _) | .controlL => .isTrue trivial

/-- The first two terminals start, and a line is typed into each, the second one anew after
Ctrl+L. -/
def twoTerminals : List QueueAct :=
  [.act (.tick 0 0 zeroEnv), .act (.key 0x61), .act (.key 0x0A), .act (.altF 1), .act (.key 0x63), .controlL,
    .act (.key 0x62), .act (.key 0x0A), .act (.tick 0 0 zeroEnv)]

/-- Both terminals have entered a line, and the first one reads first: it gets its line, and
the other one stays. -/
theorem reads_stay_home_in_order :
    ∃ k g k' g' out, run (actTagged smallFs) (Kernel.boot linkedPaging fun _ => 0, untyped)
        (twoTerminals ++ [.act (.tick 0 0 zeroEnv), .act (.tick 0 0 zeroEnv)]) = some (k, g) ∧
      actTagged smallFs (k, g) (.act (.read localBuf 128)) = some (out, (k', g')) ∧ k.terminalNum = 0 ∧
      (∀ x ∈ out, x.2 = 0) ∧
      g'.unread.filter (fun x => x.2 ≠ 0) = g.unread.filter (fun x => x.2 ≠ 0) := by
  have hrun : ((run (actTagged smallFs) (Kernel.boot linkedPaging fun _ => 0, untyped)
      (twoTerminals ++ [.act (.tick 0 0 zeroEnv), .act (.tick 0 0 zeroEnv)])).bind fun s =>
        (actTagged smallFs s (.act (.read localBuf 128))).map fun _ => s.1.terminalNum) = some 0 := by
    decide +kernel
  obtain ⟨⟨k, g⟩, hr, hrun⟩ := Option.bind_eq_some_iff.mp hrun
  obtain ⟨⟨out, k', g'⟩, hs, hn⟩ := Option.map_eq_some_iff.mp hrun
  have h := reads_stay_home smallFs linkedPaging (fun _ => 0) _ k k' g g' localBuf 128 out hr
    (by decide +kernel) hs
  dsimp only at hn
  rw [hn] at h
  exact ⟨k, g, k', g', out, hr, hs, hn, h.2⟩

/-- Both terminals have entered a line, and the second one reads first: it gets the line
typed into the first. -/
theorem read_takes_other_line :
    ∃ k g k' g', run (actTagged smallFs) (Kernel.boot linkedPaging fun _ => 0, untyped) twoTerminals =
        some (k, g) ∧ k.terminalNum = 1 ∧
      actTagged smallFs (k, g) (.act (.read localBuf 128)) = some ([(0x61, 0), (0x0A, 0)], (k', g')) := by
  have hrun : ((run (actTagged smallFs) (Kernel.boot linkedPaging fun _ => 0, untyped)
      twoTerminals).bind fun s => (actTagged smallFs s (.act (.read localBuf 128))).map fun r =>
        (s.1.terminalNum, r.1)) = some (1, [(0x61, 0), (0x0A, 0)]) := by decide +kernel
  obtain ⟨⟨k, g⟩, hr, hrun⟩ := Option.bind_eq_some_iff.mp hrun
  obtain ⟨⟨out, k', g'⟩, hs, hq⟩ := Option.map_eq_some_iff.mp hrun
  obtain ⟨hn, rfl⟩ := Prod.mk.inj hq
  exact ⟨k, g, k', g', hr, hn, hs⟩

end Flipit
