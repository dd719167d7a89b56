import Flipit.Scheduler

/- From scan codes to characters.

   `keyboard_interrupt_handler` is a chain of tests on the code: the keys with a meaning of their
   own first, then the range of releases, then the printable range. It tells letters from other
   keys by leaving ranges out, which puts backspace, the keypad's star and the space bar among the
   letters, and gets away with it because the two tables agree there.

   `Modifiers` is the machine it stands for: a key is held from its press to its release, caps lock
   turns over when its key goes down and not on a repeat, and the label of a key (`label`, the
   layout of the keyboard) says what it types. `typed_eq_reference`: over every sequence of codes
   the handler types what the machine does.

   Correspondence:
     `keyboard_interrupt_handler`   ↔ `keyboardInterruptHandler`; what it calls is an `Event`
     `is_letter`                    ↔ `isLetter`
     `keyboard_mapping_lowercase`   ↔ `keyboardMappingLowercase`
     `keyboard_mapping_capital`     ↔ `keyboardMappingCapital` -/
namespace Flipit
open Machine Bytes

/-! ## The handler -/

/-- The flags of `keyboard_handler.c`. -/
structure Flags where
  capsLockFlag : Nat
  capsLockCounter : Nat
  rightShiftFlag : Nat
  leftShiftFlag : Nat
  controlFlag : Nat
  altFlag : Nat

def Flags.zero : Flags := ⟨0, 0, 0, 0, 0, 0⟩

/-- `is_letter`. -/
def isLetter (c : Nat) : Bool :=
  if c ≥ 0x01 ∧ c ≤ 0x0D then false
  else if c = 0x1A ∨ c = 0x1B then false
  else if c ≥ 0x27 ∧ c ≤ 0x2B then false
  else if c ≥ 0x33 ∧ c ≤ 0x35 then false
  else true

/-- `keyboard_mapping_lowercase`; the rest of its 60 bytes is zero. -/
def keyboardMappingLowercase : List UInt8 :=
  [0x00, 0x1B, 0x31, 0x32, 0x33, 0x34, 0x35, 0x36, 0x37, 0x38, 0x39, 0x30, 0x2D,
    0x3D, 0x08, 0x09, 0x71, 0x77, 0x65, 0x72, 0x74, 0x79, 0x75, 0x69, 0x6F, 0x70,
    0x5B, 0x5D, 0x13, 0x00, 0x61, 0x73, 0x64, 0x66, 0x67, 0x68, 0x6A, 0x6B, 0x6C,
    0x3B, 0x27, 0x60, 0x00, 0x5C, 0x7A, 0x78, 0x63, 0x76, 0x62, 0x6E, 0x6D, 0x2C,
    0x2E, 0x2F, 0x00, 0x2A, 0x00, 0x20, 0x00, 0x00]

/-- `keyboard_mapping_capital`. -/
def keyboardMappingCapital : List UInt8 :=
  [0x00, 0x1B, 0x21, 0x40, 0x23, 0x24, 0x25, 0x5E, 0x26, 0x2A, 0x28, 0x29, 0x5F,
    0x2B, 0x08, 0x09, 0x51, 0x57, 0x45, 0x52, 0x54, 0x59, 0x55, 0x49, 0x4F, 0x50,
    0x7B, 0x7D, 0x13, 0x00, 0x41, 0x53, 0x44, 0x46, 0x47, 0x48, 0x4A, 0x4B, 0x4C,
    0x3A, 0x22, 0x7E, 0x00, 0x7C, 0x5A, 0x58, 0x43, 0x56, 0x42, 0x4E, 0x4D, 0x3C,
    0x3E, 0x3F, 0x00, 0x2A, 0x00, 0x20, 0x00, 0x00]

/-- The character the handler picks for a code of the printable range, by `caps_lock_counter` and
the two shift flags. -/
def mappedChar (counter shift c : Nat) : UInt8 :=
  if counter = 0 then
    if shift ≠ 0 then keyboardMappingCapital.getD c 0 else keyboardMappingLowercase.getD c 0
  else if !isLetter c then
    if shift ≠ 0 then keyboardMappingCapital.getD c 0 else keyboardMappingLowercase.getD c 0
  else if shift ≠ 0 then keyboardMappingLowercase.getD c 0
  else keyboardMappingCapital.getD c 0

/-- `keyboard_interrupt_handler` on the byte it reads from the port: what it calls and the flags
after it. -/
def keyboardInterruptHandler (f : Flags) (code : UInt8) : Option Event × Flags :=
  let c := code.toNat
  if c = 0x1C then (some (.key 0x0A), f)
  else if c = 0x0F then (none, f)
  else if c = 0x01 then (none, f)
  else if c = 0x38 then (none, { f with altFlag := 1 })
  else if c = 0xB8 then (none, { f with altFlag := 0 })
  else if c = 0x3A then
    -- still down: a repeat
    if f.capsLockFlag = 1 then (none, f)
    else if f.capsLockCounter = 0 then (none, { f with capsLockFlag := 1, capsLockCounter := 1 })
    else (none, { f with capsLockCounter := 0, capsLockFlag := 1 })
  else if c = 0xBA then (none, { f with capsLockFlag := 0 })
  else if c = 0x36 then (none, { f with rightShiftFlag := 1 })
  else if c = 0xB6 then (none, { f with rightShiftFlag := 0 })
  else if c = 0x2A then (none, { f with leftShiftFlag := 1 })
  else if c = 0xAA then (none, { f with leftShiftFlag := 0 })
  else if c = 0x1D then (none, { f with controlFlag := 1 })
  else if c = 0x9D then (none, { f with controlFlag := 0 })
  else if c ≥ 0x81 ∧ c ≤ 0xD8 then (none, f)
  else if c ≥ 0x01 ∧ c ≤ 0x39 ∧ f.controlFlag ≠ 1 ∧ f.altFlag ≠ 1 then
    (some (.key (mappedChar f.capsLockCounter (f.rightShiftFlag ||| f.leftShiftFlag) c)), f)
  else if c = 0x26 ∧ f.controlFlag = 1 then (some .controlL, f)
  else if f.altFlag = 1 then
    if c = 0x3B then (some (.altF 0), f)
    else if c = 0x3C then (some (.altF 1), f)
    else if c = 0x3D then (some (.altF 2), f)
    else (none, f)
  else (none, f)

/-- The character passed to `add_to_buffer`. -/
def typed : Option Event → Option UInt8
  | some (.key c) => some c
  | _ => none

@[simp] theorem typed_key (c : UInt8) : typed (some (.key c)) = some c := rfl
@[simp] theorem typed_none : typed none = none := rfl
@[simp] theorem typed_controlL : typed (some .controlL) = none := rfl
@[simp] theorem typed_altF (dest : Fin 3) : typed (some (.altF dest)) = none := rfl

/-! ## The reference machine -/

/-- What a key is labelled with. -/
inductive Label where
  | letter (lower : UInt8)
  | symbol (plain shifted : UInt8)

/-- A row of letters, and a row of other keys. -/
def letters (row : String) : List Label := (ascii row).map .letter
def symbols (plain shifted : String) : List Label := List.zipWith .symbol (ascii plain) (ascii shifted)

/-- The keys that type something, row by row from the code of the first. -/
def labels : List (Nat × List Label) :=
  [(0x02, symbols "1234567890-=" "!@#$%^&*()_+"), (0x0E, [.symbol 0x08 0x08]), (0x10, letters "qwertyuiop"),
    (0x1A, symbols "[]" "\x7b\x7d"), (0x1E, letters "asdfghjkl"), (0x27, symbols ";'`" ":\"~"),
    (0x2B, symbols "\\" "|"), (0x2C, letters "zxcvbnm"), (0x33, symbols ",./" "<>?"), (0x37, symbols "*" "*"),
    (0x39, symbols " " " ")]

def label (key : Nat) : Option Label :=
  labels.findSome? fun row => if row.1 ≤ key then row.2[key - row.1]? else none

/-- Which keys are down, and whether caps lock is on. -/
structure Modifiers where
  held : Nat → Bool
  capsLock : Bool

namespace Modifiers

def start : Modifiers := ⟨fun _ => false, false⟩

def shift (m : Modifiers) : Bool := m.held 0x36 || m.held 0x2A

/-- A letter is upper case if exactly one of caps lock and shift is in force; any other key is
shifted if shift is. -/
def char (m : Modifiers) : Label → UInt8
  | .letter lower => if m.capsLock != m.shift then lower - 0x20 else lower
  | .symbol plain shifted => if m.shift then shifted else plain

/-- A key goes down, or repeats. Enter types a newline; the other keys type with neither Ctrl nor
Alt down. -/
def press (m : Modifiers) (key : Nat) : Option UInt8 × Modifiers :=
  (if key = 0x1C then some 0x0A
    else if m.held 0x1D || m.held 0x38 then none else (label key).map m.char,
    { held := Function.update m.held key true
      capsLock := if key = 0x3A && !m.held 0x3A then !m.capsLock else m.capsLock })

/-- A key comes up. -/
def release (m : Modifiers) (key : Nat) : Option UInt8 × Modifiers :=
  (none, { m with held := Function.update m.held key false })

/-- A code below 0x80 is the press of the key of that number, the others are releases. -/
def step (m : Modifiers) (code : UInt8) : Option UInt8 × Modifiers :=
  if code.toNat < 0x80 then m.press code.toNat else m.release (code.toNat - 0x80)

end Modifiers

/-! ## The tables -/

/-- The two tables hold what the key is labelled with, and a key that is no letter but passes for
one has the same character in both. -/
def Label.Fits (key : Nat) : Label → Prop
  | .letter lower => isLetter key = true ∧ keyboardMappingLowercase.getD key 0 = lower ∧
      keyboardMappingCapital.getD key 0 = lower - 0x20
  | .symbol plain shifted => keyboardMappingLowercase.getD key 0 = plain ∧
      keyboardMappingCapital.getD key 0 = shifted ∧ (isLetter key = true → plain = shifted)

instance (key : Nat) : (l : Label) → Decidable (l.Fits key)
  | .letter _ => inferInstanceAs (Decidable (_ ∧ _ ∧ _))
  | .symbol _ _ => inferInstanceAs (Decidable (_ ∧ _ ∧ _))

theorem label_fits : ∀ key < 128, ∀ l ∈ label key, l.Fits key := by decide +kernel

/-- The codes of the printable range without a label: none, escape, tab, Enter, Ctrl, the shift keys
and Alt. -/
def unlabelled : List Nat := [0x00, 0x01, 0x0F, 0x1C, 0x1D, 0x2A, 0x36, 0x38]

theorem label_isSome : ∀ key < 128, (label key).isSome = decide (key ∉ unlabelled ∧ key ≤ 0x39) := by
  decide +kernel

theorem mappedChar_label {key : Nat} (hkey : key < 128) {l : Label} (hl : label key = some l) (m : Modifiers)
    {shift : Nat} (hshift : shift ≠ 0 ↔ m.shift = true) :
    mappedChar m.capsLock.toNat shift key = m.char l := by
  have hfits := label_fits key hkey l hl
  unfold mappedChar
  simp only [hshift]
  cases l with
  | letter lower =>
    obtain ⟨hletter, hlow, hcap⟩ := hfits
    rw [hletter, hlow, hcap]
    unfold Modifiers.char
    cases m.capsLock <;> cases m.shift <;> rfl
  | symbol plain shifted =>
    obtain ⟨hlow, hcap, hboth⟩ := hfits
    rw [hlow, hcap]
    unfold Modifiers.char
    cases hletter : isLetter key with
    | false => cases m.capsLock <;> cases m.shift <;> rfl
    | true =>
      -- taken for a letter: either table will do
      rw [hboth hletter]
      cases m.capsLock <;> cases m.shift <;> rfl

/-! ## One code -/

section
variable {f : Flags} {m : Modifiers} {code : UInt8} {key : Nat}

/-- The keys the handler keeps a flag for, and that flag. -/
def modifierKeys : List Nat := [0x3A, 0x36, 0x2A, 0x1D, 0x38]

def Flags.flag (f : Flags) (key : Nat) : Nat :=
  if key = 0x3A then f.capsLockFlag
  else if key = 0x36 then f.rightShiftFlag
  else if key = 0x2A then f.leftShiftFlag
  else if key = 0x1D then f.controlFlag
  else f.altFlag

/-- Up from the press of the key to its release. -/
def heldAfter (key c old : Nat) : Nat := if c = key then 1 else if c = key + 0x80 then 0 else old

/-- The flags stand for the keys held, and the counter for caps lock. -/
structure Refines (f : Flags) (m : Modifiers) : Prop where
  flags : ∀ key ∈ modifierKeys, f.flag key = (m.held key).toNat
  counter : f.capsLockCounter = m.capsLock.toNat

def modifierCodes : List Nat := modifierKeys ++ modifierKeys.map (· + 0x80)

theorem handler_other (f : Flags) (h : code.toNat ∉ modifierCodes) :
    (keyboardInterruptHandler f code).2 = f := by
  unfold keyboardInterruptHandler
  generalize code.toNat = c at h ⊢
  simp only [modifierCodes, modifierKeys, List.map_cons, List.map_nil, List.cons_append, List.nil_append,
    List.mem_cons, List.not_mem_nil, or_false, not_or] at h
  obtain ⟨h1, h2, h3, h4, h5, h6, h7, h8, h9, h10⟩ := h
  dsimp only
  rw [if_neg h1, if_neg h2, if_neg h3, if_neg h4, if_neg h5, if_neg h6, if_neg h7, if_neg h8, if_neg h9,
    if_neg h10]
  simp only [apply_ite Prod.snd, ite_self]

theorem handler_capsLock (f : Flags) :
    (keyboardInterruptHandler f 0x3A).2 =
      if f.capsLockFlag = 1 then f
      else { f with capsLockFlag := 1, capsLockCounter := if f.capsLockCounter = 0 then 1 else 0 } := by
  change (if f.capsLockFlag = 1 then (none, f)
    else if f.capsLockCounter = 0 then (none, { f with capsLockFlag := 1, capsLockCounter := 1 })
    else (none, { f with capsLockCounter := 0, capsLockFlag := 1 }) : Option Event × Flags).2 = _
  by_cases hdown : f.capsLockFlag = 1
  · rw [if_pos hdown, if_pos hdown]
  · rw [if_neg hdown, if_neg hdown]
    by_cases hoff : f.capsLockCounter = 0
    · rw [if_pos hoff, if_pos hoff]
    · rw [if_neg hoff, if_neg hoff]

theorem modifier_code (hcode : code.toNat ∈ modifierCodes) (hcaps : code.toNat ≠ 0x3A) :
    code = 0x36 ∨ code = 0x2A ∨ code = 0x1D ∨ code = 0x38 ∨ code = 0xBA ∨ code = 0xB6 ∨ code = 0xAA ∨
      code = 0x9D ∨ code = 0xB8 := by
  simp only [modifierCodes, modifierKeys, List.map_cons, List.map_nil, List.cons_append, List.nil_append,
    List.mem_cons, List.not_mem_nil, or_false] at hcode
  have hnine : code.toNat = UInt8.toNat 0x36 ∨ code.toNat = UInt8.toNat 0x2A ∨ code.toNat = UInt8.toNat 0x1D ∨
      code.toNat = UInt8.toNat 0x38 ∨ code.toNat = UInt8.toNat 0xBA ∨ code.toNat = UInt8.toNat 0xB6 ∨
      code.toNat = UInt8.toNat 0xAA ∨ code.toNat = UInt8.toNat 0x9D ∨ code.toNat = UInt8.toNat 0xB8 :=
    hcode.resolve_left hcaps
  simpa only [UInt8.toNat_inj] using hnine

theorem handler_held (f : Flags) (code : UInt8) (hkey : key ∈ modifierKeys) :
    (keyboardInterruptHandler f code).2.flag key = heldAfter key code.toNat (f.flag key) := by
  by_cases hcode : code.toNat ∈ modifierCodes
  · simp only [modifierKeys, List.mem_cons, List.not_mem_nil, or_false] at hkey
    by_cases hcaps : code.toNat = 0x3A
    · obtain rfl : code = 0x3A := UInt8.toNat_inj.mp hcaps
      rw [handler_capsLock]
      by_cases hdown : f.capsLockFlag = 1
      · rw [if_pos hdown]
        rcases hkey with rfl | rfl | rfl | rfl | rfl
        · exact hdown
        all_goals rfl
      · rw [if_neg hdown]
        rcases hkey with rfl | rfl | rfl | rfl | rfl
        all_goals rfl
    · obtain rfl | rfl | rfl | rfl | rfl | rfl | rfl | rfl | rfl := modifier_code hcode hcaps
      all_goals rcases hkey with rfl | rfl | rfl | rfl | rfl
      all_goals rfl
  · rw [handler_other f hcode, heldAfter, if_neg, if_neg]
    · intro he
      exact hcode (he ▸ List.mem_append_right _ (List.mem_map_of_mem hkey))
    · intro he
      exact hcode (he ▸ List.mem_append_left _ hkey)

theorem handler_counter (f : Flags) (code : UInt8) :
    (keyboardInterruptHandler f code).2.capsLockCounter =
      if code.toNat = 0x3A ∧ f.capsLockFlag ≠ 1 then if f.capsLockCounter = 0 then 1 else 0
      else f.capsLockCounter := by
  by_cases hcode : code.toNat ∈ modifierCodes
  · by_cases hcaps : code.toNat = 0x3A
    · obtain rfl : code = 0x3A := UInt8.toNat_inj.mp hcaps
      rw [handler_capsLock]
      by_cases hdown : f.capsLockFlag = 1
      · rw [if_pos hdown, if_neg (fun h => h.2 hdown)]
      · have hturn : UInt8.toNat 0x3A = 0x3A ∧ f.capsLockFlag ≠ 1 := ⟨hcaps, hdown⟩
        rw [if_neg hdown, if_pos hturn]
    · rw [if_neg (fun h => hcaps h.1)]
      obtain rfl | rfl | rfl | rfl | rfl | rfl | rfl | rfl | rfl := modifier_code hcode hcaps
      all_goals rfl
  · have hcaps : code.toNat ≠ 0x3A := fun he => hcode (by rw [he]; decide)
    rw [handler_other f hcode, if_neg (fun h => hcaps h.1)]

theorem handler_typed (f : Flags) (code : UInt8) :
    typed (keyboardInterruptHandler f code).1 =
      if code.toNat = 0x1C then some 0x0A
      else if (code.toNat ∉ unlabelled ∧ code.toNat ≤ 0x39) ∧ f.controlFlag ≠ 1 ∧ f.altFlag ≠ 1 then
        some (mappedChar f.capsLockCounter (f.rightShiftFlag ||| f.leftShiftFlag) code.toNat)
      else none := by
  unfold keyboardInterruptHandler
  generalize code.toNat = c
  dsimp only
  by_cases henter : c = 0x1C
  · rw [if_pos henter, if_pos henter]
    rfl
  rw [if_neg henter, if_neg henter]
  by_cases hlabel : c ∉ unlabelled ∧ c ≤ 0x39
  · -- no earlier test takes the code
    have hmem := hlabel.1
    simp only [unlabelled, List.mem_cons, List.not_mem_nil, or_false, not_or] at hmem
    obtain ⟨h0, h1, h2, -, h4, h5, h6, h7⟩ := hmem
    rw [if_neg h2, if_neg h1, if_neg h7, if_neg (by omega), if_neg (by omega), if_neg (by omega), if_neg h6,
      if_neg (by omega), if_neg h5, if_neg (by omega), if_neg h4, if_neg (by omega), if_neg (by omega)]
    by_cases hfree : f.controlFlag ≠ 1 ∧ f.altFlag ≠ 1
    · rw [if_pos ⟨by omega, by omega, hfree⟩, if_pos ⟨hlabel, hfree⟩]
      rfl
    · have hrange : ¬ (c ≥ 0x01 ∧ c ≤ 0x39 ∧ f.controlFlag ≠ 1 ∧ f.altFlag ≠ 1) := fun h => hfree h.2.2
      have hnot : ¬ ((c ∉ unlabelled ∧ c ≤ 0x39) ∧ f.controlFlag ≠ 1 ∧ f.altFlag ≠ 1) := fun h => hfree h.2
      rw [if_neg hrange, if_neg hnot]
      simp only [apply_ite Prod.fst, apply_ite typed, typed_none, typed_controlL, typed_altF, ite_self]
  · have hnot : ¬ ((c ∉ unlabelled ∧ c ≤ 0x39) ∧ f.controlFlag ≠ 1 ∧ f.altFlag ≠ 1) := fun h => hlabel h.1
    rw [if_neg hnot]
    by_cases hmem : c ∈ unlabelled
    · simp only [unlabelled, List.mem_cons, List.not_mem_nil, or_false] at hmem
      rcases hmem with rfl | rfl | rfl | rfl | rfl | rfl | rfl | rfl
      · simp
      all_goals first | rfl | exact absurd rfl henter
    · have hrange : ¬ (c ≥ 0x01 ∧ c ≤ 0x39 ∧ f.controlFlag ≠ 1 ∧ f.altFlag ≠ 1) :=
        fun h => hlabel ⟨hmem, h.2.1⟩
      rw [if_neg hrange]
      simp only [apply_ite Prod.fst, apply_ite typed, typed_none, typed_controlL, typed_altF, ite_self]

theorem step_held (m : Modifiers) (code : UInt8) (hkey : key < 0x80) :
    (m.step code).2.held key =
      if code.toNat = key then true else if code.toNat = key + 0x80 then false else m.held key := by
  unfold Modifiers.step
  by_cases hpress : code.toNat < 0x80
  · rw [if_pos hpress]
    simp only [Modifiers.press, Function.update_apply]
    by_cases hk : key = code.toNat
    · rw [if_pos hk, if_pos hk.symm]
    · rw [if_neg hk, if_neg (Ne.symm hk), if_neg (by omega)]
  · rw [if_neg hpress]
    simp only [Modifiers.release, Function.update_apply]
    by_cases hk : key = code.toNat - 0x80
    · rw [if_pos hk, if_neg (by omega), if_pos (by omega)]
    · rw [if_neg hk, if_neg (by omega), if_neg (by omega)]

theorem step_capsLock (m : Modifiers) (code : UInt8) :
    (m.step code).2.capsLock =
      if code.toNat = 0x3A ∧ m.held 0x3A = false then !m.capsLock else m.capsLock := by
  unfold Modifiers.step
  by_cases hpress : code.toNat < 0x80
  · rw [if_pos hpress]
    simp [Modifiers.press]
  · rw [if_neg hpress, if_neg (by omega)]
    rfl

theorem Refines.flag (h : Refines f m) (hkey : key ∈ modifierKeys) : f.flag key = 1 ↔ m.held key = true := by
  rw [h.flags key hkey]
  cases m.held key <;> decide

theorem Refines.shift (h : Refines f m) : f.rightShiftFlag ||| f.leftShiftFlag ≠ 0 ↔ m.shift = true := by
  have hright : f.rightShiftFlag = (m.held 0x36).toNat := h.flags 0x36 (by decide)
  have hleft : f.leftShiftFlag = (m.held 0x2A).toNat := h.flags 0x2A (by decide)
  rw [hright, hleft, Modifiers.shift]
  cases m.held 0x36 <;> cases m.held 0x2A <;> decide

theorem Refines.typed (h : Refines f m) (code : UInt8) :
    typed (keyboardInterruptHandler f code).1 = (m.step code).1 := by
  have hcontrol : f.controlFlag = 1 ↔ m.held 0x1D = true := h.flag (show 0x1D ∈ modifierKeys by decide)
  have halt : f.altFlag = 1 ↔ m.held 0x38 = true := h.flag (show 0x38 ∈ modifierKeys by decide)
  rw [handler_typed]
  unfold Modifiers.step
  by_cases hpress : code.toNat < 0x80
  · rw [if_pos hpress]
    simp only [Modifiers.press]
    by_cases henter : code.toNat = 0x1C
    · rw [if_pos henter, if_pos henter]
    rw [if_neg henter, if_neg henter]
    by_cases hheld : (m.held 0x1D || m.held 0x38) = true
    · have hnot : ¬ ((code.toNat ∉ unlabelled ∧ code.toNat ≤ 0x39) ∧ f.controlFlag ≠ 1 ∧ f.altFlag ≠ 1) := by
        intro hboth
        rw [Ne, Ne, hcontrol, halt] at hboth
        simp [hboth.2.1, hboth.2.2] at hheld
      rw [if_neg hnot, if_pos hheld]
    · have hfree : f.controlFlag ≠ 1 ∧ f.altFlag ≠ 1 := by
        rw [Ne, Ne, hcontrol, halt]
        simpa using hheld
      rw [if_neg hheld]
      have hsome := label_isSome code.toNat hpress
      cases hl : label code.toNat with
      | none =>
        have hnot : ¬ (code.toNat ∉ unlabelled ∧ code.toNat ≤ 0x39) := by simpa [hl] using hsome
        rw [if_neg (fun hboth => hnot hboth.1)]
        rfl
      | some l =>
        have hyes : code.toNat ∉ unlabelled ∧ code.toNat ≤ 0x39 := by simpa [hl] using hsome
        rw [if_pos ⟨hyes, hfree⟩, h.counter, mappedChar_label hpress hl m h.shift]
        rfl
  · rw [if_neg hpress, if_neg (by omega), if_neg (fun hboth => hpress (by omega))]
    rfl

theorem Refines.step (h : Refines f m) (code : UInt8) :
    Refines (keyboardInterruptHandler f code).2 (m.step code).2 where
  flags := by
    intro key hkey
    have hlow : key < 0x80 := by
      revert key
      decide
    rw [handler_held f code hkey, step_held m code hlow, h.flags key hkey, heldAfter]
    by_cases hdown : code.toNat = key
    · rw [if_pos hdown, if_pos hdown]
      rfl
    · rw [if_neg hdown, if_neg hdown]
      by_cases hup : code.toNat = key + 0x80
      · rw [if_pos hup, if_pos hup]
        rfl
      · rw [if_neg hup, if_neg hup]
  counter := by
    have hcaps : f.capsLockFlag = 1 ↔ m.held 0x3A = true := h.flag (show 0x3A ∈ modifierKeys by decide)
    rw [handler_counter, step_capsLock, h.counter]
    simp only [Ne, hcaps, Bool.not_eq_true]
    by_cases hturn : code.toNat = 0x3A ∧ m.held 0x3A = false
    · rw [if_pos hturn, if_pos hturn]
      cases m.capsLock <;> rfl
    · rw [if_neg hturn, if_neg hturn]

theorem refines_start : Refines Flags.zero Modifiers.start where
  flags := by decide
  counter := rfl

end

/-- Over every sequence of scan codes, whatever keys overlap and repeat, the characters the handler
passes to `add_to_buffer` are those of the reference machine, code by code. -/
theorem typed_eq_reference (codes : List UInt8) :
    (outputs keyboardInterruptHandler Flags.zero codes).map typed =
      outputs Modifiers.step Modifiers.start codes :=
  outputs_simulation (fun h code => ⟨h.typed code, h.step code⟩) refines_start codes

end Flipit
