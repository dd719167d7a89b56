import Flipit.Blinks
import Mathlib.Data.Nat.ModEq

/- When a character blinks. A structure is lit for `lasts on_length` passes of the tasklet and
   dark for `lasts off_length`, and so on; `lasts` is the length itself but for the lengths
   whose countdown is not positive as a signed word after the first pass.

   `Phase` is this state of one structure after so many passes, `Shines` that state in a list
   together with the screen. Requests for other locations keep it (`Shines.step`), so
   `blinks_on_time` reads the character on the screen off the number of passes, in any run.

   `Bright` is the same for a whole list: the screen shows the state of each structure on it. Runs
   keep that (`screen_shows`) but for a `sync` that copies a lit state; `sync_screen` says what
   every `sync` puts on the screen. -/
namespace Blinks
open Bytes Chains Machine

/-- The passes of the tasklet until a countdown ends. -/
def lasts (w : UInt16) : Nat := if w.toNat = 0 ∨ 0x8000 < w.toNat then 1 else w.toNat

theorem lasts_pos (w : UInt16) : 0 < lasts w := by
  unfold lasts
  split <;> omega

theorem pred_toNat (w : UInt16) : (w - 1).toNat = if w.toNat = 0 then 0xFFFF else w.toNat - 1 := by
  have hlt := w.toNat_lt
  rw [UInt16.toNat_sub]
  change (2 ^ 16 - 1 + w.toNat) % 2 ^ 16 = _
  split <;> omega

theorem toInt_pos (w : UInt16) : 0 < w.toBitVec.toInt ↔ 0 < w.toNat ∧ w.toNat < 0x8000 := by
  have hlt := w.toNat_lt
  rw [BitVec.toInt_eq_toNat_cond, UInt16.toNat_toBitVec]
  split <;> omega

/-! ## One structure -/

section
variable {b u : Fields} {n : Nat}

theorem turn_waits (h : 1 < lasts b.countdown) :
    Board.turn b = ({ b with countdown := b.countdown - 1 }, none) ∧
      lasts (b.countdown - 1) = lasts b.countdown - 1 := by
  have hpred := pred_toNat b.countdown
  unfold lasts at h ⊢
  split at h
  · omega
  · rw [if_neg (by omega)] at hpred
    have hpos : 0 < (b.countdown - 1).toBitVec.toInt := by
      rw [toInt_pos]
      omega
    refine ⟨?_, ?_⟩
    · simp only [Board.turn, if_pos hpos]
    · rw [if_neg (by omega), hpred, if_neg (by omega)]

theorem turn_flips (h : lasts b.countdown = 1) :
    Board.turn b = if b.status &&& 1 ≠ 0 then
        ({ b with countdown := b.offLength, status := b.status ^^^ 1 }, some b.offChar)
      else ({ b with countdown := b.onLength, status := b.status ^^^ 1 }, some b.onChar) := by
  have hpred := pred_toNat b.countdown
  have hneg : ¬0 < (b.countdown - 1).toBitVec.toInt := by
    rw [toInt_pos]
    unfold lasts at h
    split at h
    · split at hpred <;> omega
    · rw [if_neg (by omega)] at hpred
      omega
  simp only [Board.turn, if_neg hneg]

def shown (b : Fields) : UInt8 := if b.status &&& 1 ≠ 0 then b.onChar else b.offChar

theorem shown_turn (h : b.status = 0 ∨ b.status = 1) :
    (match (Board.turn b).2 with | none => shown b | some c => c) = shown (Board.turn b).1 := by
  by_cases hw : 1 < lasts b.countdown
  · rw [(turn_waits hw).1]
    rfl
  · have hpos := lasts_pos b.countdown
    rw [turn_flips (by omega)]
    cases h with
    | inl h => simp [h, shown]
    | inr h => simp [h, shown]

theorem turn_bit (h : b.status = 0 ∨ b.status = 1) : (Board.turn b).1.status = 0 ∨ (Board.turn b).1.status = 1 := by
  by_cases hw : 1 < lasts b.countdown
  · rw [(turn_waits hw).1]
    exact h
  · have hpos := lasts_pos b.countdown
    rw [turn_flips (by omega)]
    cases h with
    | inl h => simp [h]
    | inr h => simp [h]

/-- The state of a structure `n` passes after `u` was added. -/
structure Phase (u : Fields) (n : Nat) (b : Fields) : Prop where
  location : b.location = u.location
  onChar : b.onChar = u.onChar
  offChar : b.offChar = u.offChar
  onLength : b.onLength = u.onLength
  offLength : b.offLength = u.offLength
  countdown : lasts b.countdown = if n % (lasts u.onLength + lasts u.offLength) < lasts u.onLength
    then lasts u.onLength - n % (lasts u.onLength + lasts u.offLength)
    else lasts u.onLength + lasts u.offLength - n % (lasts u.onLength + lasts u.offLength)
  status : b.status = if n % (lasts u.onLength + lasts u.offLength) < lasts u.onLength then 1 else 0

theorem Phase.start (u : Fields) : Phase u 0 { u with status := 1, countdown := u.onLength } where
  location := rfl
  onChar := rfl
  offChar := rfl
  onLength := rfl
  offLength := rfl
  countdown := by simp [lasts_pos]
  status := by simp [lasts_pos]

theorem succ_mod {n k : Nat} (hk : 1 < k) : (n + 1) % k = if n % k + 1 = k then 0 else n % k + 1 := by
  have hlt := Nat.mod_lt n (show 0 < k by omega)
  rw [Nat.add_mod, Nat.mod_eq_of_lt hk]
  split
  · rename_i h
    rw [h, Nat.mod_self]
  · exact Nat.mod_eq_of_lt (by omega)

theorem Phase.turn (h : Phase u n b) : Phase u (n + 1) (Board.turn b).1 := by
  have hon := lasts_pos u.onLength
  have hoff := lasts_pos u.offLength
  have hcount := h.countdown
  have hstatus := h.status
  have hmod := Nat.mod_lt n (show 0 < lasts u.onLength + lasts u.offLength by omega)
  have hsucc := succ_mod (n := n) (show 1 < lasts u.onLength + lasts u.offLength by omega)
  obtain ⟨k', hk'⟩ : ∃ k', k' = (n + 1) % (lasts u.onLength + lasts u.offLength) := ⟨_, rfl⟩
  rw [← hk'] at hsucc
  generalize n % (lasts u.onLength + lasts u.offLength) = k at hcount hstatus hmod hsucc
  -- on the half of the period, and on whether it ends
  by_cases hlit : k < lasts u.onLength
  · rw [if_pos hlit] at hcount hstatus
    rw [if_neg (by omega)] at hsucc
    by_cases hw : 1 < lasts b.countdown
    · obtain ⟨hturn, hleft⟩ := turn_waits hw
      rw [hturn]
      refine ⟨h.location, h.onChar, h.offChar, h.onLength, h.offLength, ?_, ?_⟩
      · rw [← hk', if_pos (by omega), hleft]
        omega
      · rw [← hk', if_pos (by omega), hstatus]
    · rw [turn_flips (by omega), hstatus, if_pos (by decide)]
      refine ⟨h.location, h.onChar, h.offChar, h.onLength, h.offLength, ?_, ?_⟩
      · rw [← hk', if_neg (by omega), h.offLength]
        dsimp only
        omega
      · rw [← hk', if_neg (by omega)]
        exact UInt16.xor_self
  · rw [if_neg hlit] at hcount hstatus
    by_cases hw : 1 < lasts b.countdown
    · rw [if_neg (by omega)] at hsucc
      obtain ⟨hturn, hleft⟩ := turn_waits hw
      rw [hturn]
      refine ⟨h.location, h.onChar, h.offChar, h.onLength, h.offLength, ?_, ?_⟩
      · rw [← hk', if_neg (by omega), hleft]
        omega
      · rw [← hk', if_neg (by omega), hstatus]
    · rw [if_pos (by omega)] at hsucc
      rw [turn_flips (by omega), hstatus, if_neg (by decide)]
      refine ⟨h.location, h.onChar, h.offChar, h.onLength, h.offLength, ?_, ?_⟩
      · rw [← hk', if_pos (by omega), h.onLength]
        dsimp only
        omega
      · rw [← hk', if_pos (by omega)]
        exact UInt16.zero_xor

theorem Phase.shown (h : Phase u n b) :
    Blinks.shown b =
      if n % (lasts u.onLength + lasts u.offLength) < lasts u.onLength then u.onChar else u.offChar := by
  rw [Blinks.shown, h.status, h.onChar, h.offChar]
  split <;> simp

theorem Phase.bit (h : Phase u n b) : b.status = 0 ∨ b.status = 1 := by
  rw [h.status]
  split <;> simp

end

/-! ## The structures at a location -/

section
variable {l : List Fields} {loc : UInt16} {v w : Memory} {b : Fields} {p q : Fields → Bool}

theorem filter_eraseP {α : Type} {p q : α → Bool} (h : ∀ x, p x → ¬q x) (l : List α) :
    (l.eraseP p).filter q = l.filter q := by
  induction l with
  | nil => rfl
  | cons a l ih =>
    cases ha : p a with
    | true => simp [ha, h a ha]
    | false => simp [ha, List.filter_cons, ih]

theorem filter_set {α : Type} {p q : α → Bool} {b : α} (h : ∀ x, p x → ¬q x) (hb : ¬q b) (l : List α) :
    (l.set (l.findIdx p) b).filter q = l.filter q := by
  induction l with
  | nil => rfl
  | cons a l ih =>
    cases ha : p a with
    | true => simp [List.findIdx_cons, ha, h a ha, hb]
    | false => simp [List.findIdx_cons, ha, List.filter_cons, ih]

theorem isAt_iff : Lights.isAt loc b ↔ b.location = loc := by simp [Lights.isAt]

theorem poke_ne {c : UInt8} {loc loc' : UInt16} (h : loc' ≠ loc) :
    Function.update v (2 * loc'.toNat) c (2 * loc.toNat) = v (2 * loc.toNat) := by
  have hne : loc'.toNat ≠ loc.toNat := fun hn => h (UInt16.toNat_inj.mp hn)
  exact Function.update_of_ne (by omega) ..

theorem blink_ne (h : b.location ≠ loc) : Lights.blink v b (2 * loc.toNat) = v (2 * loc.toNat) := by
  rw [Lights.blink]
  cases (Board.turn b).2 with
  | none => rfl
  | some c => exact poke_ne h

theorem blink_self (h : b.location = loc) :
    Lights.blink v b (2 * loc.toNat) = match (Board.turn b).2 with | none => v (2 * loc.toNat) | some c => c := by
  rw [Lights.blink]
  cases (Board.turn b).2 with
  | none => rfl
  | some c => simp [h]

theorem foldl_blink (h : v (2 * loc.toNat) = w (2 * loc.toNat)) :
    l.foldl Lights.blink v (2 * loc.toNat) = (l.filter (Lights.isAt loc)).foldl Lights.blink w (2 * loc.toNat) := by
  induction l generalizing v w with
  | nil => exact h
  | cons b l ih =>
    by_cases hb : b.location = loc
    · rw [List.filter_cons_of_pos (isAt_iff.mpr hb), List.foldl_cons, List.foldl_cons]
      apply ih
      rw [blink_self hb, blink_self hb, h]
    · rw [List.filter_cons_of_neg (by simpa [isAt_iff] using hb), List.foldl_cons]
      apply ih
      rw [blink_ne hb, h]

end

/-! ## A structure among others -/

/-- A request that is not about a location. -/
def Request.Spares (loc : UInt16) : Request → Prop
  | .add u => u.location ≠ loc
  | .remove arg => arg.toUInt16 ≠ loc
  | .sync arg => lowWord arg ≠ loc
  | .find _ | .tasklet => True

/-- The passes of the tasklet. -/
def passes (es : List Request) : Nat := es.countP fun
  | .tasklet => true
  | _ => false

/-- The only structure at its location is `u`, added `n` passes ago, and its character is on the screen. -/
structure Shines (u : Fields) (n : Nat) (t : Lights) : Prop where
  only : ∃ b, t.1.filter (Lights.isAt u.location) = [b] ∧ Phase u n b ∧ t.2 (2 * u.location.toNat) = shown b

section
variable {u : Fields} {t : Lights} {n : Nat}

theorem Shines.add (hnone : t.1.find? (Lights.isAt u.location) = none) :
    Shines u 0 ({ u with status := 1, countdown := u.onLength } :: t.1,
      Function.update t.2 (2 * u.location.toNat) u.onChar) := by
  refine ⟨_, ?_, Phase.start u, ?_⟩
  · rw [List.filter_cons, List.filter_eq_nil_iff.mpr (List.find?_eq_none.mp hnone)]
    simp [Lights.isAt]
  · simp [shown]

theorem Shines.tasklet (h : Shines u n t) : Shines u (n + 1) (t.step .tasklet).2 := by
  obtain ⟨b, honly, hphase, hscreen⟩ := h
  refine ⟨(Board.turn b).1, ?_, hphase.turn, ?_⟩
  · have hturn : (Lights.isAt u.location ∘ fun b => (Board.turn b).1) = Lights.isAt u.location := by
      funext x
      simp [Lights.isAt, Lists.turn_location]
    simp [Lights.step, List.filter_map, hturn, honly]
  · have hfold : t.1.foldl Lights.blink t.2 (2 * u.location.toNat) =
        Lights.blink t.2 b (2 * u.location.toNat) := by
      rw [foldl_blink rfl, honly]
      rfl
    refine hfold.trans ?_
    rw [blink_self hphase.location, hscreen]
    exact shown_turn hphase.bit

theorem Shines.step (h : Shines u n t) (e : Request) (he : e.Spares u.location) :
    Shines u (n + passes [e]) (t.step e).2 := by
  cases e with
  | tasklet => exact h.tasklet
  | find v =>
    rw [Lights.step]
    split <;> exact h
  | add v =>
    obtain ⟨b, honly, hphase, hscreen⟩ := h
    have hne : v.location ≠ u.location := he
    rw [Lights.step]
    split
    · exact ⟨b, honly, hphase, hscreen⟩
    · refine ⟨b, ?_, hphase, (poke_ne hne).trans hscreen⟩
      rw [List.filter_cons_of_neg (by simpa [isAt_iff] using hne), honly]
  | remove arg =>
    obtain ⟨b, honly, hphase, hscreen⟩ := h
    rw [Lights.step]
    split
    · exact ⟨b, honly, hphase, hscreen⟩
    · refine ⟨b, ?_, hphase, hscreen⟩
      rw [filter_eraseP, honly]
      intro x hx
      rw [isAt_iff] at hx ⊢
      rw [hx]
      exact he
  | sync arg =>
    obtain ⟨b, honly, hphase, hscreen⟩ := h
    rw [Lights.step]
    split
    · rename_i src dst hsrc hdst
      have hdstAt : dst.location = lowWord arg := isAt_iff.mp (List.find?_some hdst)
      have hne : dst.location ≠ u.location := hdstAt ▸ he
      refine ⟨b, ?_, hphase, (poke_ne hne).trans hscreen⟩
      rw [filter_set, honly]
      · intro x hx
        rw [isAt_iff] at hx ⊢
        rw [hx]
        exact he
      · rw [isAt_iff]
        exact hne
    · exact ⟨b, honly, hphase, hscreen⟩

theorem Shines.run (h : Shines u n t) (es : List Request) (hes : ∀ e ∈ es, e.Spares u.location) :
    Shines u (n + passes es) (es.foldl (fun t e => (t.step e).2) t) := by
  induction es generalizing t n with
  | nil => exact h
  | cons e es ih =>
    have hnext := ih (h.step e (hes e (List.mem_cons_self ..))) fun e he => hes e (List.mem_cons_of_mem _ he)
    have hsum : n + passes (e :: es) = n + passes [e] + passes es := by
      rw [Nat.add_assoc, passes, passes, passes, ← List.countP_append]
      rfl
    rw [hsum]
    exact hnext

end

theorem Follows.add {s : Board} {t : Lights} (h : Follows s t) (u : Blink) (hu : u.location ≠ 0) {n : Nat}
    (hn : 2000 < n) (hfree : s.mp1FindHelper n u.location = some none) (hadd : (s.mp1IoctlAdd u).1 = 0) :
    ∃ t', Follows (s.mp1IoctlAdd u).2 t' ∧ Shines u.toFields 0 t' := by
  obtain ⟨cells, hlists⟩ := h
  have hnone : t.1.find? (Lights.isAt u.location) = none := by
    rw [hlists.find_eq, Option.some.inj ((hlists.helper u.location hn).symm.trans hfree), Option.map_none]
  obtain ⟨hret, hnext⟩ := hlists.add u hu
  rw [hadd] at hret
  have hadded : (t.step (.add u)).2 = ({ u.toFields with status := 1, countdown := u.onLength } :: t.1,
      Function.update t.2 (2 * u.location.toNat) u.onChar) := by
    rw [Lights.step] at hret ⊢
    split at hret
    · cases hret
    · rename_i hroom
      rw [if_neg hroom]
  rw [hadded] at hnext
  exact ⟨_, hnext, Shines.add hnone⟩

/-- A structure that is added where none is blinks from then on, whatever else is asked for that is
not about its location: after `k` passes of the tasklet its `on_char` is on the screen in the first
`lasts on_length` passes of each period, and its `off_char` in the rest. -/
theorem blinks_on_time (video : Memory) (es es' : List Request) (u : Blink) {s : Board} {n : Nat} (hn : 2000 < n)
    (hes : ∀ e ∈ es, e.Placed) (hrun : run (Board.step n) (Board.start video) es = some s) (hu : u.location ≠ 0)
    (hfree : s.mp1FindHelper n u.location = some none) (hadd : (s.mp1IoctlAdd u).1 = 0)
    (hes' : ∀ e ∈ es', e.Placed ∧ e.Spares u.location) :
    ∃ s', run (Board.step n) (s.mp1IoctlAdd u).2 es' = some s' ∧
      s'.video (2 * u.location.toNat) =
        if passes es' % (lasts u.onLength + lasts u.offLength) < lasts u.onLength then u.onChar else u.offChar := by
  obtain ⟨o, s1, htrace, -, hfollows⟩ := (Follows.start video).trace es hes hn
  obtain rfl : s1 = s := Option.some.inj ((run_of_trace htrace).symm.trans hrun)
  obtain ⟨t, hadded, hshines⟩ := hfollows.add u hu hn hfree hadd
  obtain ⟨o', s', htrace', -, cells, hlists⟩ := hadded.trace es' (fun e he => (hes' e he).1) hn
  obtain ⟨b, -, hphase, hscreen⟩ := hshines.run es' fun e he => (hes' e he).2
  refine ⟨s', run_of_trace htrace', ?_⟩
  rw [hlists.video, hscreen, hphase.shown, Nat.zero_add]

/-- Eight passes, with requests about the other structure among them. -/
def eightPasses : List Request :=
  List.replicate 4 .tasklet ++ [.sync 0x21C0028, .find frameBlink, .remove 0x28] ++ List.replicate 4 .tasklet

theorem blinks_on_time_fish :
    ∃ s s', run (Board.step 2001) (Board.start fun _ => 0) [.add frameBlink, .tasklet] = some s ∧
      run (Board.step 2001) (s.mp1IoctlAdd fishBlink).2 eightPasses = some s' ∧
      s'.video (2 * fishBlink.location.toNat) = fishBlink.offChar := by
  have hrun : (run (Board.step 2001) (Board.start fun _ => 0) [.add frameBlink, .tasklet]).map (fun s =>
      (s.mp1FindHelper 2001 fishBlink.location, (s.mp1IoctlAdd fishBlink).1)) = some (some none, 0) := by
    decide +kernel
  obtain ⟨s, hr, hq⟩ := Option.map_eq_some_iff.mp hrun
  obtain ⟨hfree, hadd⟩ := Prod.mk.inj hq
  obtain ⟨s', hr', hvideo⟩ := blinks_on_time (fun _ => 0) [.add frameBlink, .tasklet] eightPasses fishBlink
    (by decide) (by simp [Request.Placed, frameBlink]) hr (by decide) hfree hadd
    (by simp [eightPasses, Request.Placed, Request.Spares, lowWord, fishBlink]; decide)
  exact ⟨s, s', hr, hr', hvideo.trans (by decide)⟩

/-! ## What the screen shows of the whole list -/

/-- No two structures have one location, and the screen shows the state of each. -/
structure Bright (t : Lights) : Prop where
  nodup : (t.1.map Fields.location).Nodup
  bit : ∀ b ∈ t.1, b.status = 0 ∨ b.status = 1
  screen : ∀ b ∈ t.1, t.2 (2 * b.location.toNat) = shown b

section
variable {t : Lights} {l : List Fields} {b src dst u : Fields} {loc : UInt16}

theorem notMem_locations (h : l.find? (Lights.isAt loc) = none) : loc ∉ l.map Fields.location := by
  intro hmem
  obtain ⟨b, hb, hl⟩ := List.mem_map.mp hmem
  exact List.find?_eq_none.mp h b hb (isAt_iff.mpr hl)

theorem eq_of_location (h : (l.map Fields.location).Nodup) (hb : b ∈ l) (hdst : dst ∈ l)
    (hl : b.location = dst.location) : b = dst := List.inj_on_of_nodup_map h hb hdst hl

theorem filter_location (h : (l.map Fields.location).Nodup) (hb : b ∈ l) : l.filter (Lights.isAt b.location) = [b] := by
  induction l with
  | nil => simp at hb
  | cons a l ih =>
    obtain ⟨ha, hl⟩ := List.nodup_cons.mp h
    cases List.mem_cons.mp hb with
    | inl hba =>
      have hrest : l.filter (Lights.isAt b.location) = [] := by
        rw [List.filter_eq_nil_iff]
        intro c hc hca
        exact ha (List.mem_map.mpr ⟨c, hc, by rw [isAt_iff.mp hca, hba]⟩)
      rw [List.filter_cons, hrest, hba]
      simp [Lights.isAt]
    | inr hbl =>
      have hne : a.location ≠ b.location := fun hab => ha (List.mem_map.mpr ⟨b, hbl, hab.symm⟩)
      rw [List.filter_cons_of_neg (by simpa [isAt_iff] using hne), ih hl hbl]

theorem map_location_set (hfind : l.find? (Lights.isAt loc) = some dst) (hb : b.location = loc) :
    (l.set (l.findIdx (Lights.isAt loc)) b).map Fields.location = l.map Fields.location := by
  induction l with
  | nil => rfl
  | cons a l ih =>
    cases ha : Lights.isAt loc a with
    | true => simp [List.findIdx_cons, ha, hb, isAt_iff.mp ha]
    | false =>
      simp only [List.find?_cons, ha] at hfind
      simp [List.findIdx_cons, ha, ih hfind]

theorem Bright.add (h : Bright t) (hnone : t.1.find? (Lights.isAt u.location) = none) :
    Bright ({ u with status := 1, countdown := u.onLength } :: t.1,
      Function.update t.2 (2 * u.location.toNat) u.onChar) := by
  have hnew := notMem_locations hnone
  refine ⟨List.nodup_cons.mpr ⟨hnew, h.nodup⟩, fun b hb => ?_, fun b hb => ?_⟩
  · cases List.mem_cons.mp hb with
    | inl hbu => simp [hbu]
    | inr hb => exact h.bit b hb
  · cases List.mem_cons.mp hb with
    | inl hbu => simp [hbu, shown]
    | inr hb =>
      have hne : u.location ≠ b.location := fun hub => hnew (List.mem_map.mpr ⟨b, hb, hub.symm⟩)
      exact (poke_ne hne).trans (h.screen b hb)

theorem Bright.erase (h : Bright t) : Bright (t.1.eraseP (Lights.isAt loc), t.2) where
  nodup := h.nodup.sublist (List.eraseP_sublist.map _)
  bit b hb := h.bit b (List.mem_of_mem_eraseP hb)
  screen b hb := h.screen b (List.mem_of_mem_eraseP hb)

theorem Bright.tasklet (h : Bright t) : Bright (t.step .tasklet).2 := by
  have hlocations : (t.1.map fun b => (Board.turn b).1).map Fields.location = t.1.map Fields.location := by
    simp [Function.comp_def, Lists.turn_location]
  refine ⟨hlocations ▸ h.nodup, fun c hc => ?_, fun c hc => ?_⟩
  · obtain ⟨b, hb, rfl⟩ := List.mem_map.mp hc
    exact turn_bit (h.bit b hb)
  · obtain ⟨b, hb, rfl⟩ := List.mem_map.mp hc
    have hfold : t.1.foldl Lights.blink t.2 (2 * b.location.toNat) = Lights.blink t.2 b (2 * b.location.toNat) := by
      rw [foldl_blink rfl, filter_location h.nodup hb]
      rfl
    rw [Lists.turn_location]
    refine hfold.trans ?_
    rw [blink_self rfl, h.screen b hb]
    exact shown_turn (h.bit b hb)

/-- A `sync` leaves the screen right if and only if it copies no lit state to different characters. -/
theorem Bright.sync (h : Bright t) (hsrc : src ∈ t.1) (hdst : t.1.find? (Lights.isAt loc) = some dst)
    (hok : src.status = 0 ∨ dst.onChar = dst.offChar) :
    Bright (t.1.set (t.1.findIdx (Lights.isAt loc)) (Board.synced src dst),
      Function.update t.2 (2 * dst.location.toNat) dst.offChar) := by
  have hat : dst.location = loc := isAt_iff.mp (List.find?_some hdst)
  have hnodup : ((t.1.set (t.1.findIdx (Lights.isAt loc)) (Board.synced src dst)).map Fields.location).Nodup := by
    rw [map_location_set hdst (b := Board.synced src dst) hat]
    exact h.nodup
  have hnew : Board.synced src dst ∈ t.1.set (t.1.findIdx (Lights.isAt loc)) (Board.synced src dst) := by
    apply List.mem_set
    rw [List.findIdx_lt_length]
    exact ⟨dst, List.mem_of_find?_eq_some hdst, List.find?_some hdst⟩
  have hmem : ∀ c ∈ t.1.set (t.1.findIdx (Lights.isAt loc)) (Board.synced src dst),
      c = Board.synced src dst ∨ c ∈ t.1 ∧ c.location ≠ dst.location := by
    intro c hc
    cases List.mem_or_eq_of_mem_set hc with
    | inr hnew => exact .inl hnew
    | inl hold =>
      by_cases hl : c.location = dst.location
      · exact .inl (eq_of_location hnodup hc hnew hl)
      · exact .inr ⟨hold, hl⟩
  refine ⟨hnodup, fun c hc => ?_, fun c hc => ?_⟩
  · cases hmem c hc with
    | inl hnew => simpa [hnew, Board.synced] using h.bit src hsrc
    | inr hold => exact h.bit c hold.1
  · cases hmem c hc with
    | inl hnew =>
      rw [hnew]
      cases hok with
      | inl hdark => simp [Board.synced, shown, hdark]
      | inr hsame => simp [Board.synced, shown, hsame]
    | inr hold => exact (poke_ne hold.2.symm).trans (h.screen c hold.1)

end

/-- Nothing is added at location 0 or where a structure is, and `sync` copies no lit state to a
structure of two different characters. -/
def Request.Plain (n : Nat) (s : Board) : Request → Prop
  | .add u => u.location ≠ 0 ∧ s.mp1FindHelper n u.location = some none
  | .sync arg => ∀ i j, s.mp1FindHelper n (highWord arg) = some (some i) →
      s.mp1FindHelper n (lowWord arg) = some (some j) → (s.array i).status = 0 ∨ (s.array j).onChar = (s.array j).offChar
  | _ => True

section
variable {s : Board} {cells : List Cell} {t : Lights} {e : Request} {n : Nat}

theorem Lists.bright_step (h : Lists s cells t) (hb : Bright t) (hn : 2000 < n) (he : e.Plain n s) :
    Bright (t.step e).2 := by
  cases e with
  | tasklet => exact hb.tasklet
  | find u =>
    rw [Lights.step]
    split <;> exact hb
  | add u =>
    have hnone : t.1.find? (Lights.isAt u.location) = none := by
      rw [h.find_eq, Option.some.inj ((h.helper u.location hn).symm.trans he.2), Option.map_none]
    rw [Lights.step]
    split
    · exact hb
    · exact hb.add hnone
  | remove arg =>
    rw [Lights.step]
    split
    · exact hb
    · exact hb.erase
  | sync arg =>
    rw [Lights.step]
    split
    · rename_i src dst hsrc hdst
      have hi := h.find_eq (highWord arg)
      have hj := h.find_eq (lowWord arg)
      rw [hsrc] at hi
      rw [hdst] at hj
      obtain ⟨i, hcell, rfl⟩ := Option.map_eq_some_iff.mp hi.symm
      obtain ⟨j, hcell', rfl⟩ := Option.map_eq_some_iff.mp hj.symm
      refine hb.sync (List.mem_of_find?_eq_some hsrc) hdst (he i j ?_ ?_)
      · rw [h.helper _ hn, hcell]
      · rw [h.helper _ hn, hcell']
    · exact hb

/-- In every run of requests that are `Plain` where they are made, each structure on the list has its
own location, and the screen shows there the character of its state. -/
theorem screen_shows (video : Memory) (es : List Request) (hn : 2000 < n)
    (hes : Meets (Board.step n) (Request.Plain n) (Board.start video) es)
    (hrun : run (Board.step n) (Board.start video) es = some s) :
    ∃ cells, Chain s.next s.listHead cells ∧ (cells.map fun i => (s.array i).location).Nodup ∧
      ∀ i ∈ cells, s.video (2 * (s.array i).location.toNat) = shown (s.array i).toFields := by
  have hinv : ∃ cells t, Lists s cells t ∧ Bright t := by
    refine run_invariant (I := fun s => ∃ cells t, Lists s cells t ∧ Bright t) ?_
      ⟨[], ([], video), Lists.start video, by simp, by simp, by simp⟩ hes hrun
    intro s e r h he hs
    obtain ⟨cells, t, hlists, hb⟩ := h
    have hplaced : e.Placed := by
      cases e with
      | add u => exact he.1
      | _ => trivial
    obtain ⟨o, s', cells', hs', -, hlists'⟩ := hlists.step e hplaced hn
    obtain rfl : (o, s') = r := Option.some.inj (hs'.symm.trans hs)
    exact ⟨cells', _, hlists', hlists.bright_step hb hn he⟩
  obtain ⟨cells, t, hlists, hb⟩ := hinv
  have hmem : ∀ i ∈ cells, (s.array i).toFields ∈ t.1 := by
    intro i hi
    rw [← hlists.fields]
    exact List.mem_map_of_mem hi
  refine ⟨cells, hlists.chain, ?_, fun i hi => ?_⟩
  · have hnodup := hb.nodup
    rw [← hlists.fields, List.map_map] at hnodup
    exact hnodup
  · rw [hlists.video]
    exact hb.screen _ (hmem i hi)

end

instance (n : Nat) (s : Board) : (e : Request) → Decidable (e.Plain n s)
  | .add _ => inferInstanceAs (Decidable (_ ∧ _))
  | .sync arg => decidable_of_iff
      ((s.mp1FindHelper n (highWord arg)).join.all fun i => (s.mp1FindHelper n (lowWord arg)).join.all fun j =>
        decide ((s.array i).status = 0 ∨ (s.array j).onChar = (s.array j).offChar))
      (by
        simp only [Option.all_eq_true, Option.join_eq_some_iff, decide_eq_true_eq]
        exact ⟨fun h i j hi hj => h i hi j hj, fun h i hi j hj => h i j hi hj⟩)
  | .remove _ | .find _ | .tasklet => .isTrue trivial

/-- Two structures; the first one is dark when the second one takes its state. -/
def darkSync : List Request :=
  [.add fishBlink, .add frameBlink] ++ List.replicate 8 .tasklet ++ [.sync 0x21C0028, .find fishBlink, .tasklet]

theorem screen_shows_fish :
    ∃ s cells, run (Board.step 2001) (Board.start fun _ => 0) darkSync = some s ∧ s.listHead ≠ none ∧
      Chain s.next s.listHead cells ∧ (cells.map fun i => (s.array i).location).Nodup ∧
      ∀ i ∈ cells, s.video (2 * (s.array i).location.toNat) = shown (s.array i).toFields := by
  have hrun : (run (Board.step 2001) (Board.start fun _ => 0) darkSync).map (fun s => s.listHead.isSome) =
      some true := by decide +kernel
  obtain ⟨s, hr, hhead⟩ := Option.map_eq_some_iff.mp hrun
  obtain ⟨cells, h⟩ := screen_shows (fun _ => 0) darkSync (by decide) (by decide +kernel) hr
  exact ⟨s, cells, hr, Option.isSome_iff_ne_none.mp hhead, h⟩

/-- A `sync` that answers 0 always puts the second structure's `off_char` on the screen, so the screen
is right behind it if and only if the state it copies is dark, or the two characters are one. -/
theorem sync_screen {s s' : Board} {arg : UInt32} {n : Nat} (h : s.mp1IoctlSync n arg = some (0, s')) :
    ∃ i j, s.mp1FindHelper n (highWord arg) = some (some i) ∧ s.mp1FindHelper n (lowWord arg) = some (some j) ∧
      (s.array i).location = highWord arg ∧ (s.array j).location = lowWord arg ∧
      (s'.array j).toFields = Board.synced (s.array i).toFields (s.array j).toFields ∧
      s'.video (2 * (lowWord arg).toNat) = (s.array j).offChar ∧
      (s'.video (2 * (lowWord arg).toNat) = shown (s'.array j).toFields ↔
        (s.array i).status &&& 1 = 0 ∨ (s.array j).onChar = (s.array j).offChar) := by
  obtain ⟨hit, hi, h⟩ := Option.bind_eq_some_iff.mp h
  cases hit with
  | none => cases h
  | some i =>
    obtain ⟨hit, hj, h⟩ := Option.map_eq_some_iff.mp h
    cases hit with
    | none => cases h
    | some j =>
      have hsrc : (s.array i).location = highWord arg := by simpa using walk_found hi
      have hdst : (s.array j).location = lowWord arg := by simpa using walk_found hj
      obtain ⟨b, hb⟩ : ∃ b, b = Board.synced (s.array i).toFields (s.array j).toFields := ⟨_, rfl⟩
      dsimp only at h
      rw [← hb, Board.syncChar_eq] at h
      obtain ⟨-, rfl⟩ := Prod.mk.inj h
      have hlocation : b.location = lowWord arg := by rw [hb, ← hdst]; rfl
      have hoff : b.offChar = (s.array j).offChar := by rw [hb]; rfl
      have hon : b.onChar = (s.array j).onChar := by rw [hb]; rfl
      have hstatus : b.status = (s.array i).status := by rw [hb]; rfl
      set board := s.store j { toFields := b, next := s.next j } with hboard
      have harray : ((board.mp1Poke (2 * b.location.toNat) b.offChar).array j).toFields = b := by
        simp [hboard]
      have hvideo : (board.mp1Poke (2 * b.location.toNat) b.offChar).video (2 * (lowWord arg).toNat) = b.offChar := by
        rw [← hlocation]
        simp
      refine ⟨i, j, hi, hj, hsrc, hdst, harray.trans hb, hvideo.trans hoff, ?_⟩
      rw [hvideo, harray, shown, hstatus, hoff, hon]
      by_cases hdark : (s.array i).status &&& 1 = 0
      · simp [hdark]
      · simp [hdark, eq_comm]

/-- The state of the frame's structure is lit when the other one takes it. -/
def litRun : List Request := [.add fishBlink, .add frameBlink, .tasklet]

theorem sync_screen_lit :
    ∃ s s', run (Board.step 2001) (Board.start fun _ => 0) litRun = some s ∧
      s.mp1IoctlSync 2001 0x28021C = some (0, s') ∧
      ∃ i j, (s.array i).status = 1 ∧ (s'.array j).location = 540 ∧ (s'.array j).status = 1 ∧
        s'.video 1080 = (s.array j).offChar ∧ s'.video 1080 ≠ shown (s'.array j).toFields := by
  have hrun : ((run (Board.step 2001) (Board.start fun _ => 0) litRun).bind fun s =>
      (s.mp1IoctlSync 2001 0x28021C).map fun r =>
        (r.1, (s.mp1FindHelper 2001 40).map fun hit => hit.map fun i => (s.array i).status,
          (s.mp1FindHelper 2001 540).map fun hit => hit.map fun j => ((s.array j).onChar, (s.array j).offChar))) =
      some (0, some (some 1), some (some (fishBlink.onChar, fishBlink.offChar))) := by decide +kernel
  obtain ⟨s, hr, hrun⟩ := Option.bind_eq_some_iff.mp hrun
  obtain ⟨⟨v, s'⟩, hs, hrun⟩ := Option.map_eq_some_iff.mp hrun
  simp only [Prod.mk.injEq] at hrun
  obtain ⟨rfl, hlit, hchars⟩ := hrun
  obtain ⟨i, j, hi, hj, -, hdst, hfields, hoff, hright⟩ := sync_screen hs
  replace hi : s.mp1FindHelper 2001 40 = some (some i) := hi
  replace hj : s.mp1FindHelper 2001 540 = some (some j) := hj
  have hstatus : (s.array i).status = 1 := by simpa [hi] using hlit
  have hne : (s.array j).onChar ≠ (s.array j).offChar := by
    obtain ⟨hon, hoff⟩ : (s.array j).onChar = fishBlink.onChar ∧ (s.array j).offChar = fishBlink.offChar := by
      simpa [hj] using hchars
    rw [hon, hoff]
    decide
  refine ⟨s, s', hr, hs, i, j, hstatus, ?_, ?_, hoff, fun hshown => ?_⟩
  · exact (congrArg Fields.location hfields).trans hdst
  · exact (congrArg Fields.status hfields).trans hstatus
  · cases hright.mp hshown with
    | inl hdark => rw [hstatus] at hdark; cases hdark
    | inr heq => exact hne heq

end Blinks
