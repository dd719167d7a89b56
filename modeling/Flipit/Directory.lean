import Flipit.FileReads

/- The directory, as the lookups and the reads of a directory file show it.

   The boot block holds 63 slots of 64 bytes, of which the first `dentry_count` are
   entries. A slot's name is its bytes up to the first zero, at most 32
   (`Fs.name`). `read_dentry_by_name` finds the first of the 63 slots with the name
   asked for (`read_dentry_by_name_exact`), `read_dentry_by_index` accepts every index
   up to and including `dentry_count` (`readDentryByIndex_eq`): neither stops at the
   last entry, and the two describe different directories (`lookups_disagree`).

   `directory_file_read` keeps its place in `f_offset` and tests it against
   `dentry_count` itself, so the index that is accepted once too often is never
   delivered: the reads of an open directory list the entries, in order, each once
   (`directory_reads`). -/
namespace Flipit
open Machine Bytes

def Fs.name (fs : Fs) (i : Nat) : List UInt8 := stringAt (fs.dentry i).fileName 32

/-- The name a lookup left in the caller's dentry. -/
def Lookup.name (l : Lookup) : List UInt8 := (List.range l.fnameLength).map l.dentry.fileName

/-- The string a name argument holds. -/
def text (s : List UInt8) : List UInt8 := stringAt (cstr s) s.length

/-- The caller's dentry with slot `i` in it: `n` bytes of the name, the type and the inode. -/
def Fs.filled (fs : Fs) (i n : Nat) (d : Dentry) : Dentry where
  fileName := fun j => if j < n then (fs.dentry i).fileName j else d.fileName j
  fileType := (fs.dentry i).fileType
  inode := (fs.dentry i).inode

/-! ## The two lookups -/

section
variable {fs : Fs} {s : List UInt8} {d : Dentry} {i n : Nat}

theorem strncmp_eq_zero {s1 s2 : Memory} (h : ∀ j, j < n → s1 j ≠ 0) :
    strncmp s1 s2 n = 0 ↔ ∀ j, j < n → s1 j = s2 j := by
  unfold strncmp
  cases hf : (List.range n).find? fun i => s1 i != s2 i || s1 i == 0 with
  | none =>
    simp only [true_iff]
    intro j hj
    have := List.find?_range_eq_none.mp hf j hj
    simp only [Bool.not_eq_true', Bool.or_eq_false_iff, bne_eq_false_iff_eq] at this
    exact this.1
  | some i =>
    obtain ⟨hdiff, hi, -⟩ := List.find?_range_eq_some.mp hf
    have hi := List.mem_range.mp hi
    have hne : s1 i ≠ s2 i := by simpa [h i hi] using hdiff
    have hval : (s1 i).toInt8.toInt ≠ (s2 i).toInt8.toInt := by
      intro heq
      apply hne
      simpa using congrArg Int8.toUInt8 (Int8.toInt_inj.mp heq)
    constructor
    · intro h0
      dsimp only at h0
      exact absurd (by omega) hval
    · intro hall
      exact absurd (hall i hi) hne

/-- The comparison of the search, for a name that is not too long: the slot's name is that
name, also where it fills all 32 bytes and is not terminated. -/
theorem match_iff (fs : Fs) (i : Nat) (h32 : (text s).length ≤ 32) :
    (!((text s).length != strlen (fs.dentry i).fileName 64 && (text s).length != 32) &&
      strncmp (cstr s) (fs.dentry i).fileName (text s).length == 0) = true ↔
      fs.name i = text s := by
  rw [text, stringAt_length] at h32 ⊢
  have hne : ∀ j, j < strlen (cstr s) s.length → cstr s j ≠ 0 := fun j => ne_zero_of_lt_strlen
  have hcut := min_strlen (m := (fs.dentry i).fileName) (show 32 ≤ 64 by omega)
  simp only [Bool.and_eq_true, Bool.not_eq_true', Bool.and_eq_false_iff, bne_eq_false_iff_eq,
    beq_iff_eq, strncmp_eq_zero hne, Fs.name, stringAt_eq_iff]
  constructor
  · intro h
    obtain ⟨hlen, hbytes⟩ := h
    have hname : strlen (fs.dentry i).fileName 32 = strlen (cstr s) s.length := by
      rcases hlen with hlen | hlen
      · omega
      · apply strlen_eq h32 _ (by omega)
        intro j hj
        rw [← hbytes j hj]
        exact hne j hj
    exact ⟨hname, fun j hj => (hbytes j (hname ▸ hj)).symm⟩
  · intro h
    obtain ⟨hname, hbytes⟩ := h
    exact ⟨by omega, fun j hj => (hbytes j (hname ▸ hj)).symm⟩

theorem name_length_le (fs : Fs) (i : Nat) : (fs.name i).length ≤ 32 := by
  rw [Fs.name, stringAt_length]
  exact strlen_le

/-- `read_dentry_by_name` fills the caller's dentry from the first slot with the name, or
there is none and the dentry stays. -/
theorem readDentryByName_slot (fs : Fs) (s : List UInt8) (d : Dentry) (n : Nat) :
    (∃ i, i < 63 ∧ text s ≠ [] ∧ fs.name i = text s ∧ (∀ j, j < i → fs.name j ≠ text s) ∧
      readDentryByName fs (some s) d n =
        ⟨0, fs.filled i (text s).length d, (text s).length⟩) ∨
    (readDentryByName fs (some s) d n = ⟨-1, d, (text s).length⟩ ∧
      (text s = [] ∨ ∀ i, i < 63 → fs.name i ≠ text s)) := by
  have hlen : strlen (cstr s) s.length = (text s).length := stringAt_length.symm
  simp only [readDentryByName, hlen]
  split_ifs with h
  · refine .inr ⟨rfl, ?_⟩
    rcases h with h | h
    · refine .inr fun i _ he => ?_
      have hname := name_length_le fs i
      rw [he] at hname
      omega
    · exact .inl (List.length_eq_zero_iff.mp h)
  · have hmatch := fun i => match_iff (s := s) fs i (by omega)
    split
    · rename_i hf
      refine .inr ⟨rfl, .inr fun i hi he => ?_⟩
      have := List.find?_range_eq_none.mp hf i hi
      rw [(hmatch i).mpr he] at this
      cases this
    · rename_i i hf
      obtain ⟨hi, hmem, hfirst⟩ := List.find?_range_eq_some.mp hf
      refine .inl ⟨i, List.mem_range.mp hmem, ?_, (hmatch i).mp hi, fun j hj he => ?_, rfl⟩
      · intro h0
        rw [h0] at h
        simp at h
      · have := hfirst j hj
        rw [(hmatch j).mpr he] at this
        cases this

theorem readDentryByName_cases (fs : Fs) (s : List UInt8) (d : Dentry) (n : Nat) :
    (∃ i, i < 63 ∧ text s ≠ [] ∧ fs.name i = text s ∧ (∀ j, j < i → fs.name j ≠ text s) ∧
      (readDentryByName fs (some s) d n).ret = 0 ∧
      (readDentryByName fs (some s) d n).dentry.fileType = (fs.dentry i).fileType ∧
      (readDentryByName fs (some s) d n).dentry.inode = (fs.dentry i).inode) ∨
    ((readDentryByName fs (some s) d n).ret = -1 ∧
      (text s = [] ∨ ∀ i, i < 63 → fs.name i ≠ text s)) := by
  rcases readDentryByName_slot fs s d n with ⟨i, hi, hne, hname, hmin, heq⟩ | ⟨heq, hnone⟩
  · rw [heq]
    exact .inl ⟨i, hi, hne, hname, hmin, rfl, rfl, rfl⟩
  · rw [heq]
    exact .inr ⟨rfl, hnone⟩

/-- For every image and every name: the lookup succeeds exactly if the name has 1 to 32
bytes and is stored in one of the 63 slots. It then delivers the type and the inode of the
first such slot and the name's own bytes, and where it fails the caller's dentry stays. -/
theorem read_dentry_by_name_exact (fs : Fs) (s : List UInt8) (d : Dentry) (n : Nat) :
    let l := readDentryByName fs (some s) d n
    (l.ret = 0 ∨ l.ret = -1) ∧
    (l.ret = 0 ↔ 1 ≤ (text s).length ∧ (text s).length ≤ 32 ∧ ∃ i, i < 63 ∧ fs.name i = text s) ∧
    (l.ret = 0 → ∃ i, i < 63 ∧ fs.name i = text s ∧ (∀ j, j < i → fs.name j ≠ text s) ∧
      l.dentry.fileType = (fs.dentry i).fileType ∧ l.dentry.inode = (fs.dentry i).inode ∧
      (List.range (text s).length).map l.dentry.fileName = text s) ∧
    (l.ret = -1 → l.dentry = d) := by
  intro l
  rcases readDentryByName_slot fs s d n with ⟨i, hi, hne, hname, hmin, heq⟩ | ⟨heq, hnone⟩
  · have hl : l = ⟨0, fs.filled i (text s).length d, (text s).length⟩ := heq
    have hlen := name_length_le fs i
    rw [hname] at hlen
    rw [hl]
    refine ⟨.inl rfl, ⟨fun _ => ⟨?_, hlen, i, hi, hname⟩, fun _ => rfl⟩, fun _ => ?_, fun h => ?_⟩
    · exact List.length_pos_iff.mpr hne
    · refine ⟨i, hi, hname, hmin, rfl, rfl, ?_⟩
      calc (List.range (text s).length).map (fs.filled i (text s).length d).fileName
          = (List.range (text s).length).map (fs.dentry i).fileName := by
            apply List.map_congr_left
            intro j hj
            exact if_pos (List.mem_range.mp hj)
        _ = fs.name i := by rw [← hname, Fs.name, stringAt_length, stringAt]
        _ = text s := hname
    · simp at h
  · have hl : l = ⟨-1, d, (text s).length⟩ := heq
    rw [hl]
    refine ⟨.inr rfl, ⟨fun h => ?_, fun h => ?_⟩, fun h => ?_, fun _ => rfl⟩
    · simp at h
    · obtain ⟨hpos, -, i, hi, hname⟩ := h
      rcases hnone with h0 | hnone
      · rw [h0] at hpos
        cases hpos
      · exact absurd hname (hnone i hi)
    · simp at h

/-- `read_dentry_by_index` shows the slot, for one index more than there are entries. -/
theorem readDentryByIndex_eq (h : i ≤ fs.dentryCount) :
    (readDentryByIndex fs i d n).ret = 0 ∧ (readDentryByIndex fs i d n).name = fs.name i ∧
    (readDentryByIndex fs i d n).fnameLength = (fs.name i).length ∧
    (readDentryByIndex fs i d n).dentry.fileType = (fs.dentry i).fileType ∧
    (readDentryByIndex fs i d n).dentry.inode = (fs.dentry i).inode := by
  have hlen : min (strlen (fs.dentry i).fileName 33) 32 = strlen (fs.dentry i).fileName 32 :=
    min_strlen (by omega)
  rw [readDentryByIndex, if_neg (by omega)]
  simp only [hlen, Lookup.name, Fs.name, stringAt_length]
  refine ⟨trivial, ?_, trivial, trivial, trivial⟩
  apply List.map_congr_left
  intro j hj
  rw [if_pos (List.mem_range.mp hj)]

theorem readDentryByIndex_ret : (readDentryByIndex fs i d n).ret = 0 ↔ i ≤ fs.dentryCount := by
  constructor
  · intro h
    by_contra hi
    rw [readDentryByIndex, if_pos (by omega)] at h
    cases h
  · intro hi
    exact (readDentryByIndex_eq hi).1

end

/-- `read_dentry_by_index` succeeds for the entries and for nothing else. -/
def Fs.IndexBounded (fs : Fs) : Prop :=
  ∀ i d n, i < 2 ^ 32 → ((readDentryByIndex fs i d n).ret = 0 ↔ i < fs.dentryCount)

/-- What `read_dentry_by_name` finds is an entry, as `read_dentry_by_index` shows it. -/
def Fs.NamesListed (fs : Fs) : Prop :=
  ∀ s d n, (readDentryByName fs (some s) d n).ret = 0 → ∃ i, i < fs.dentryCount ∧
    (readDentryByIndex fs i d n).name = (text s).take 32 ∧
    (readDentryByIndex fs i d n).dentry.fileType = (readDentryByName fs (some s) d n).dentry.fileType ∧
    (readDentryByIndex fs i d n).dentry.inode = (readDentryByName fs (some s) d n).dentry.inode

/-- An accepted index whose name is not empty and occurs at no smaller one is found by
that name. -/
def Fs.IndicesNamed (fs : Fs) : Prop :=
  ∀ i d n, (readDentryByIndex fs i d n).ret = 0 → (readDentryByIndex fs i d n).name ≠ [] →
    (∀ j, j < i → (readDentryByIndex fs j d n).name ≠ (readDentryByIndex fs i d n).name) →
    let l := readDentryByName fs (some (readDentryByIndex fs i d n).name) d n
    l.ret = 0 ∧ l.dentry.fileType = (readDentryByIndex fs i d n).dentry.fileType ∧
      l.dentry.inode = (readDentryByIndex fs i d n).dentry.inode

/-- The slot shows nothing that a smaller index does not: its name is empty or a
repetition. -/
def Fs.Shadowed (fs : Fs) (i : Nat) : Prop := fs.name i = [] ∨ ∃ j, j < i ∧ fs.name j = fs.name i

theorem text_name (fs : Fs) (i : Nat) : text (fs.name i) = fs.name i :=
  stringAt_cstr zero_notMem_stringAt

theorem namesListed_iff (fs : Fs) :
    fs.NamesListed ↔ ∀ i, fs.dentryCount ≤ i → i < 63 → fs.Shadowed i := by
  constructor
  · intro h i hcount hi
    by_contra hs
    simp only [Fs.Shadowed, not_or, not_exists, not_and] at hs
    obtain ⟨hne, hfirst⟩ := hs
    rcases readDentryByName_cases fs (fs.name i) .local 0 with
      ⟨j, -, -, hj, hmin, hret, -, -⟩ | ⟨-, hnone⟩
    · -- the search stops at the slot itself, an index from `dentry_count` on
      obtain ⟨l, hl, hname, -, -⟩ := h _ _ _ hret
      rw [(readDentryByIndex_eq hl.le).2.1, text_name,
        List.take_of_length_le (name_length_le _ _)] at hname
      exact hfirst l (by omega) hname
    · rw [text_name] at hnone
      rcases hnone with h0 | hnone
      · exact hne h0
      · exact hnone i hi rfl
  · intro h s d n hret
    rcases readDentryByName_cases fs s d n with ⟨i, hi, hne, hname, hmin, -, htype, hinode⟩ | ⟨hfail, -⟩
    · have hcount : i < fs.dentryCount := by
        by_contra hge
        rcases h i (by omega) hi with h0 | ⟨j, hj, hsame⟩
        · exact hne (hname.symm.trans h0)
        · exact hmin j hj (hsame.trans hname)
      obtain ⟨-, hshown, -, htype', hinode'⟩ := readDentryByIndex_eq (d := d) (n := n) hcount.le
      refine ⟨i, hcount, ?_, htype'.trans htype.symm, hinode'.trans hinode.symm⟩
      rw [hshown, ← hname, List.take_of_length_le (name_length_le _ _)]
    · rw [hfail] at hret
      cases hret

theorem indicesNamed_iff (fs : Fs) :
    fs.IndicesNamed ↔ ∀ i, 63 ≤ i → i ≤ fs.dentryCount → fs.Shadowed i := by
  constructor
  · intro h i h63 hi
    by_contra hs
    simp only [Fs.Shadowed, not_or, not_exists, not_and] at hs
    obtain ⟨hne, hfirst⟩ := hs
    obtain ⟨hret, hname, -⟩ := readDentryByIndex_eq (d := .local) (n := 0) hi
    have hfound := (h i .local 0 hret (by rw [hname]; exact hne) fun j hj => by
      rw [hname, (readDentryByIndex_eq (show j ≤ fs.dentryCount by omega)).2.1]
      exact hfirst j hj).1
    rw [hname] at hfound
    rcases readDentryByName_cases fs (fs.name i) .local 0 with ⟨j, hj, -, hsame, -⟩ | ⟨hfail, -⟩
    · rw [text_name] at hsame
      exact hfirst j (by omega) hsame
    · rw [hfail] at hfound
      cases hfound
  · intro h i d n hret hne hfirst
    have hi := readDentryByIndex_ret.mp hret
    obtain ⟨-, hname, -, htype, hinode⟩ := readDentryByIndex_eq (d := d) (n := n) hi
    rw [hname] at hne hfirst ⊢
    have hmin : ∀ j, j < i → fs.name j ≠ fs.name i := by
      intro j hj
      have := hfirst j hj
      rwa [(readDentryByIndex_eq (show j ≤ fs.dentryCount by omega)).2.1] at this
    have h63 : i < 63 := by
      by_contra hge
      rcases h i (by omega) hi with h0 | ⟨j, hj, hsame⟩
      · exact hne h0
      · exact hmin j hj hsame
    intro l
    rcases readDentryByName_cases fs (fs.name i) d n with
      ⟨j, -, -, hj, hjmin, hret', htype', hinode'⟩ | ⟨-, hnone⟩
    · rw [text_name] at hj hjmin
      obtain rfl : j = i := by
        rcases Nat.lt_trichotomy j i with hlt | he | hgt
        · exact absurd hj (hmin j hlt)
        · exact he
        · exact absurd rfl (hjmin i hgt)
      exact ⟨hret', htype'.trans htype.symm, hinode'.trans hinode.symm⟩
    · rw [text_name] at hnone
      rcases hnone with h0 | hnone
      · exact absurd h0 hne
      · exact absurd rfl (hnone i h63)

/-- On no image do the lookups describe one directory: the index behind the last entry is
accepted. Of the other two directions each holds exactly if the slots that only one of
the lookups reaches show nothing new. -/
theorem lookups_disagree (fs : Fs) :
    ¬ (fs.IndexBounded ∧ fs.NamesListed ∧ fs.IndicesNamed) ∧
    (∀ i d n, (readDentryByIndex fs i d n).ret = 0 ↔ i ≤ fs.dentryCount) ∧
    (fs.NamesListed ↔ ∀ i, fs.dentryCount ≤ i → i < 63 → fs.Shadowed i) ∧
    (fs.IndicesNamed ↔ ∀ i, 63 ≤ i → i ≤ fs.dentryCount → fs.Shadowed i) := by
  refine ⟨?_, fun i d n => readDentryByIndex_ret, namesListed_iff fs, indicesNamed_iff fs⟩
  intro h
  have hcount : fs.dentryCount < 2 ^ 32 := word_lt ..
  have := (h.1 fs.dentryCount .local 0 hcount).mp (readDentryByIndex_ret.mpr (le_refl _))
  omega

/-- Of an image with two entries, index 2 is accepted. -/
theorem lookup_behind_last :
    smallFs.dentryCount = 2 ∧ (readDentryByIndex smallFs 2 .local 0).ret = 0 ∧
    ¬ (smallFs.IndexBounded ∧ smallFs.NamesListed ∧ smallFs.IndicesNamed) := by
  have hcount : smallFs.dentryCount = 2 := by decide +kernel
  have hret : (readDentryByIndex smallFs 2 .local 0).ret = 0 := by decide +kernel
  refine ⟨hcount, hret, fun h => ?_⟩
  have := (h.1 2 .local 0 (by omega)).mp hret
  omega

/-! ## Reading an open directory -/

/-- The answer to the `i`-th read, of size `n`: a prefix of the name of entry `i`, and
nothing once the entries are used up. -/
def Fs.listed (fs : Fs) (i n : Nat) : Int × List UInt8 :=
  if i < fs.dentryCount then
    ((min (min n 32) (fs.name i).length : Nat), (fs.name i).take (min n 32))
  else (0, [])

/-- Descriptor `fd` of the running process `a` is a directory that has been read `i`
times. -/
def Listing (fs : Fs) (k : Kernel) (a fd : Fin 8) (i : Nat) : Prop :=
  Opened k a fd ⟨some .dir, 0, min i fs.dentryCount, 1⟩

section
variable {fs : Fs} {k k' : Kernel} {a fd : Fin 8} {i : Nat}

theorem Lookup.take_name (l : Lookup) (n : Nat) :
    (List.range (min n l.fnameLength)).map l.dentry.fileName = l.name.take n := by
  rw [Lookup.name, ← List.map_take, List.take_range]

theorem Listing.read (h : Listing fs k a fd i) (hfd : 2 ≤ fd.val) {buf : Nat} {n : Int}
    (hbuf : buf ≠ 0) (h0 : 0 ≤ n) :
    ∃ k', k.step fs (.read fd.val buf n) =
        some (.returned (fs.listed i n.toNat).1 (fs.listed i n.toNat).2, k') ∧
      Listing fs k' a fd (i + 1) := by
  have hcount : fs.dentryCount < 2 ^ 32 := word_lt ..
  have hle : min i fs.dentryCount ≤ fs.dentryCount := Nat.min_le_right ..
  obtain ⟨hret, hname, hlen, -⟩ := readDentryByIndex_eq (d := .local) (n := k.fnameLength) hle
  rw [Opened.read h hfd hbuf h0, Kernel.readFunc, h.entry]
  dsimp only
  rw [Kernel.directoryFileRead, if_neg hbuf]
  simp only [h.entry]
  rw [if_neg (by rw [hret]; decide)]
  split_ifs with hend
  · -- the index is `dentry_count`: accepted by the lookup, caught by the second test
    have hi : ¬ i < fs.dentryCount := by omega
    rw [Fs.listed, if_neg hi]
    refine ⟨_, rfl, h.active, ?_, rfl⟩
    rw [show min (i + 1) fs.dentryCount = min i fs.dentryCount by omega]
    exact h.entry
  · have hi : i < fs.dentryCount := by omega
    have hmin : min i fs.dentryCount = i := by omega
    have hw : w32 (i + 1) = min (i + 1) fs.dentryCount := by
      rw [w32_of_lt (by omega)]
      omega
    rw [hmin] at hname hlen ⊢
    rw [Fs.listed, if_pos hi, Lookup.take_name, hname, hlen]
    refine ⟨_, rfl, h.active, ?_, rfl⟩
    simp only [Proc.onFd, Function.update_self, h.entry, hmin, hw]

theorem foldl_count (i : Nat) (ns : List Nat) : ns.foldl (fun j _ => j + 1) i = i + ns.length := by
  induction ns generalizing i with
  | nil => rfl
  | cons n ns ih =>
    rw [List.foldl_cons, ih, List.length_cons]
    omega

theorem scan_count {β : Type} (answer : Nat → Nat → β) (i : Nat) (ns : List Nat) :
    scan answer (fun j _ => j + 1) i ns = ns.mapIdx fun j n => answer (i + j) n := by
  induction ns generalizing i with
  | nil => rfl
  | cons n ns ih =>
    rw [scan, ih, List.mapIdx_cons]
    simp only [Nat.add_zero, Nat.add_assoc, Nat.add_comm 1]

theorem listing_trace (hfd : 2 ≤ fd.val) {es : List Event} (hes : ∀ e ∈ es, ReadCall fd e)
    {outs : List Outcome} (h : Listing fs k a fd i) (ht : trace (Kernel.step fs) k es = some (outs, k')) :
    Listing fs k' a fd (i + (sizes fd es).length) ∧
    answers fd es outs = (sizes fd es).mapIdx fun j n => fs.listed (i + j) n := by
  rw [← foldl_count, ← scan_count]
  apply calls_trace (I := fun k j => Listing fs k a fd j) _ _ hes h ht
  · intro k k' x e o h hcall hsize hs
    exact Opened.other h hcall hsize hs
  · intro k x buf m h hbuf h0 _
    exact h.read hfd hbuf h0

end

/-- After any run, `open` a directory and then call `read` on it any number of times, with
whatever sizes and whatever other descriptors are used in between. The `i`-th read is
never refused; it returns and delivers a prefix of the name of entry `i`, of at most 32
bytes and at most the size asked for, and from the last entry on 0. The offset stays
within the directory. -/
theorem directory_reads {fs : Fs} {q : Paging} {mem : Memory} {es0 es : List Event}
    {k0 k1 k : Kernel} {a fd : Fin 8} {name : Option (List UInt8)} {past : Bool} {outs : List Outcome}
    (hrun : run (Kernel.step fs) (Kernel.boot q mem) es0 = some k0)
    (hopen : k0.step fs (.openFile name past) = some (.returned fd.val [], k1))
    (hact : k1.active = some a) (hdir : ((k1.proc.pcb a).fileDescriptorTable fd).fOp = some .dir)
    (hes : ∀ e ∈ es, ReadCall fd e) (ht : trace (Kernel.step fs) k1 es = some (outs, k)) :
    (∀ buf n, buf ≠ 0 → 0 ≤ n → (k.step fs (.read fd.val buf n)).isSome) ∧
    answers fd es outs = (sizes fd es).mapIdx fs.listed ∧
    ((k.proc.pcb a).fileDescriptorTable fd).fOffset = min (sizes fd es).length fs.dentryCount := by
  obtain ⟨b, f, hb, hfree, hf, hnew⟩ := openFile_opened hopen
  obtain rfl : b = a := Option.some.inj (hf.active.symm.trans hact)
  have hfd := ((sound_run hrun).active _ _ hb).ge_two hfree
  have hlisting : Listing fs k1 b fd 0 := by
    refine ⟨hact, ?_, rfl⟩
    rw [hf.entry] at hdir ⊢
    rcases hnew.table with hop | ⟨-, hinode⟩ | ⟨hop, -⟩
    · rw [hop] at hdir; cases hdir
    · obtain ⟨op, inode, offset, active⟩ := f
      obtain ⟨rfl, rfl, rfl⟩ : op = some .dir ∧ inode = 0 ∧ offset = 0 :=
        ⟨hdir, hinode, hnew.offset⟩
      rw [Nat.zero_min, show active = 1 from hf.opened]
    · rw [hop] at hdir; cases hdir
  obtain ⟨hlast, hanswers⟩ := listing_trace hfd hes hlisting ht
  refine ⟨?_, ?_, ?_⟩
  · intro buf n hbuf h0
    obtain ⟨k', hs, -⟩ := hlast.read hfd hbuf h0
    rw [hs]; rfl
  · simpa using hanswers
  · have := hlast.entry
    rw [this, Nat.zero_add]

/-- `smallFs` with a third entry, the directory. -/
def listFs : Fs where
  bootAddr := smallFs.bootAddr
  mem := [(0x450000, [3]), (0x4500c0, [0x2e]), (0x4500e0, [1])].foldl
    (fun m c => overlay m c.1 c.2) smallFs.mem

/-- Four reads of the directory, with another `open` and a read of `data` between them. -/
def listAll : List Event :=
  [.read 2 localBuf 100, .read 2 localBuf 2, .openFile (some (ascii "data")) true,
    .read 3 localBuf 8, .read 2 localBuf 32, .read 2 localBuf 32]

/-- The first shell lists the directory. -/
theorem directory_reads_list :
    ∃ k0 k1 outs k, run (Kernel.step listFs) (Kernel.boot linkedPaging fun _ => 0)
        [.tick 0 0 zeroEnv] = some k0 ∧
      k0.step listFs (.openFile (some (ascii ".")) true) = some (.returned 2 [], k1) ∧
      trace (Kernel.step listFs) k1 listAll = some (outs, k) ∧
      answers 2 listAll outs = [(5, ascii "shell"), (2, ascii "da"), (1, ascii "."), (0, [])] := by
  have hrun : ((run (Kernel.step listFs) (Kernel.boot linkedPaging fun _ => 0)
      [.tick 0 0 zeroEnv]).bind fun k0 =>
        (k0.step listFs (.openFile (some (ascii ".")) true)).bind fun r =>
          (trace (Kernel.step listFs) r.2 listAll).map fun _ =>
            (r.1, r.2.active, (r.2.proc.pcb 0).fileDescriptorTable 2)) =
      some (.returned 2 [], some 0, ⟨some .dir, 0, 0, 1⟩) := by decide +kernel
  obtain ⟨k0, h0, hrun⟩ := Option.bind_eq_some_iff.mp hrun
  obtain ⟨⟨o, k1⟩, h1, hrun⟩ := Option.bind_eq_some_iff.mp hrun
  obtain ⟨⟨outs, k⟩, ht, hq⟩ := Option.map_eq_some_iff.mp hrun
  simp only [Prod.mk.injEq] at hq
  obtain ⟨rfl, ha, hfd⟩ := hq
  have hcalls : ∀ e ∈ listAll, ReadCall 2 e := by simp [listAll, ReadCall, localBuf]
  have hlisted : (sizes 2 listAll).mapIdx listFs.listed =
      [(5, ascii "shell"), (2, ascii "da"), (1, ascii "."), (0, [])] := by decide +kernel
  refine ⟨k0, k1, outs, k, h0, h1, ht, ?_⟩
  rw [← hlisted]
  exact (directory_reads h0 h1 ha (by rw [hfd]) hcalls ht).2.1

end Flipit
