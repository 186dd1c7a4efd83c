import Xv6.Boot.Readseg

/-!
# The boot loader

`bootmain.c`'s `bootmain`: the kernel's first page to `0x10000`, its ELF magic checked, and
each program segment read to its physical address with the rest of its memory size zeroed,
each program header read from memory when the loop reaches it.  `bootmain` then jumps to the
entry point the header in memory names.

The kernel as `bootmain` reads it is `kernelByte`, its words `kernelWord`, and its program
header `i` is `progHdr i`; a segment's load writes the addresses from `Segment.low`, its
physical address rounded down by its offset's place in a sector, to `Segment.high`.

* `loadSegment_eq`: one turn of the loop, for a `Loadable` segment that keeps off the header
  page;
* `loadLoop_loads`: the loop over segments each of which keeps off the header page and off
  the segments loaded before it;
* `bootmain_loads`: `bootmain` loads every segment and jumps to the kernel's entry point,
  and writes nothing outside the header page and the segments.
-/

namespace Xv6

namespace Boot

/-- `ELF_MAGIC`. -/
def elfMagic : UInt32 := 0x464C457F

/-- The `ushort` at `a`. -/
def readHalf (mem : PhysMem) (a : UInt32) : UInt16 := LittleEndian.word16 (mem a) (mem (a + 1))

/-- One turn of `bootmain`'s loop, for the program header at `ph`: the segment read to
`ph->paddr` and the rest of its memory size cleared, `ph->memsz` and the second `ph->filesz`
read after the `readseg`. -/
def loadSegment (disk : Nat → Nat → Block) (mem : PhysMem) (ph : UInt32) : Option PhysMem := do
  let pa := readWord mem (ph + 12)
  let mem ← readseg disk mem pa (readWord mem (ph + 16)) (readWord mem (ph + 4))
  if readWord mem (ph + 20) > readWord mem (ph + 16) then
    return stosb mem (pa + readWord mem (ph + 16)) 0 (readWord mem (ph + 20) - readWord mem (ph + 16))
  else return mem

/-- `bootmain`'s loop from `ph` to `eph`.  `ph` moves by `sizeof(struct proghdr)` modulo
`2^32` and is back where it started after `2^27` turns, so with the fuel `bootmain` gives,
the loop runs out of fuel exactly when it never ends. -/
def loadLoop (disk : Nat → Nat → Block) : Nat → PhysMem → UInt32 → UInt32 → Option PhysMem
  | 0, _, _, _ => none
  | fuel + 1, mem, ph, eph =>
    if ph < eph then do
      let mem ← loadSegment disk mem ph
      loadLoop disk fuel mem (ph + 32) eph
    else some mem

/-- `bootmain()`: the kernel's first page to `0x10000`; with the ELF magic there, every segment,
and the entry point to jump to, read from memory after the loads; no entry point when the
magic is wrong and `bootmain` returns to `bootasm.S`. -/
def bootmain (disk : Nat → Nat → Block) (mem : PhysMem) : Option (Option UInt32 × PhysMem) := do
  let elf : UInt32 := 0x10000
  let mem ← readseg disk mem elf 4096 0
  if readWord mem elf ≠ elfMagic then return (none, mem)
  let ph := elf + readWord mem (elf + 28)
  let eph := ph + 32 * (readHalf mem (elf + 44)).toUInt32
  let mem ← loadLoop disk (2 ^ 27) mem ph eph
  return (some (readWord mem (elf + 24)), mem)

/-! ## The kernel's ELF header -/

/-- The kernel's word at byte `k`. -/
def kernelWord (disk : Nat → Nat → Block) (k : Nat) : UInt32 :=
  LittleEndian.word32 (kernelByte disk k) (kernelByte disk (k + 1)) (kernelByte disk (k + 2))
    (kernelByte disk (k + 3))

/-- The kernel's half-word at byte `k`. -/
def kernelHalf (disk : Nat → Nat → Block) (k : Nat) : UInt16 :=
  LittleEndian.word16 (kernelByte disk k) (kernelByte disk (k + 1))

/-- The fields of a program header that `bootmain` reads. -/
structure Segment where
  off : UInt32
  paddr : UInt32
  filesz : UInt32
  memsz : UInt32
  deriving DecidableEq

/-- The kernel's program header `i`: `32` bytes each from `elf->phoff` on. -/
def progHdr (disk : Nat → Nat → Block) (i : Nat) : Segment :=
  let p := (kernelWord disk 28).toNat + 32 * i
  ⟨kernelWord disk (p + 4), kernelWord disk (p + 12), kernelWord disk (p + 16),
    kernelWord disk (p + 20)⟩

namespace Segment

/-- The first address the segment's `readseg` writes. -/
def low (s : Segment) : Nat := s.paddr.toNat - s.off.toNat % 512

/-- The sectors the segment's `readseg` reads. -/
def sectors (s : Segment) : Nat := (s.filesz.toNat + s.off.toNat % 512 + 511) / 512

/-- The end of what the segment's `readseg` and `stosb` write. -/
def high (s : Segment) : Nat := max (s.low + 512 * s.sectors) (s.paddr.toNat + s.memsz.toNat)

/-- A segment `bootmain` can load: rounding its address down does not go below `0`, what it
writes ends below `2^32`, its sectors lie below `2^28`, and its file size is at most its
memory size. -/
structure Loadable (s : Segment) : Prop where
  below : s.off.toNat % 512 ≤ s.paddr.toNat
  fits : s.high < 2 ^ 32
  lba : s.off.toNat / 512 + 1 + s.sectors ≤ 2 ^ 28
  file : s.filesz.toNat ≤ s.memsz.toNat

instance (s : Segment) : Decidable s.Loadable :=
  decidable_of_iff (_ ∧ _ ∧ _ ∧ _) ⟨fun ⟨a, b, c, d⟩ => ⟨a, b, c, d⟩, fun ⟨a, b, c, d⟩ => ⟨a, b, c, d⟩⟩

/-- The segment's memory: its file bytes, then zeros. -/
def image (disk : Nat → Nat → Block) (s : Segment) (k : Nat) : UInt8 :=
  if k < s.filesz.toNat then kernelByte disk (s.off.toNat + k) else 0

/-- Memory after the segment's turn of the loop: its sectors from `low` on, and zeros from
its file size to its memory size. -/
def load (disk : Nat → Nat → Block) (s : Segment) (mem : PhysMem) : PhysMem := fun a =>
  if s.paddr.toNat + s.filesz.toNat ≤ a.toNat ∧ a.toNat < s.paddr.toNat + s.memsz.toNat then 0
  else if s.low ≤ a.toNat ∧ a.toNat < s.low + 512 * s.sectors then
    kernelByte disk (s.off.toNat - s.off.toNat % 512 + (a.toNat - s.low))
  else mem a

variable {disk : Nat → Nat → Block} {s : Segment} {mem : PhysMem}

/-- The turn writes only between `low` and `high`. -/
theorem load_of_not_mem {a : UInt32} (away : ¬(s.low ≤ a.toNat ∧ a.toNat < s.high)) :
    s.load disk mem a = mem a := by
  unfold load
  simp only [high] at away
  rw [if_neg (fun h => away ⟨by unfold low; omega, by omega⟩),
    if_neg (fun h => away ⟨h.1, by omega⟩)]

/-- After the turn, a `Loadable` segment's memory holds its file bytes, then zeros. -/
theorem load_image (ok : s.Loadable) {k : Nat} (hk : k < s.memsz.toNat) :
    s.load disk mem (s.paddr + UInt32.ofNat k) = s.image disk k := by
  obtain ⟨below, fits, -, file⟩ := ok
  simp only [high, low, sectors] at fits
  have addr : (s.paddr + UInt32.ofNat k).toNat = s.paddr.toNat + k := Window.toNat_add_ofNat (by omega)
  unfold load image
  simp only [addr, low, sectors]
  by_cases infile : k < s.filesz.toNat
  · rw [if_neg (fun h => absurd h.1 (by omega)), if_pos ⟨by omega, by omega⟩, if_pos infile]
    exact congrArg (kernelByte disk) (by omega)
  · rw [if_pos ⟨by omega, by omega⟩, if_neg infile]

/-- A segment whose file bytes all lie in sector `b` of the disk, every byte of which is `v`:
its memory is `v` up to its file size, then zeros. -/
theorem image_of_fill {b : Nat} {v : UInt8} (fill : ∀ j, disk 0 b j = v)
    (inSector : ∀ k < s.filesz.toNat, (s.off.toNat + k) / bsize + 1 = b) (k : Nat) :
    s.image disk k = if k < s.filesz.toNat then v else 0 := by
  unfold image
  split_ifs with file
  · rw [kernelByte, inSector k file, fill]
  · rfl

end Segment

/-! ## One segment -/

/-- Memory as the loop leaves it after `i` segments: the kernel's first page at `0x10000`,
and each of the first `i` segments at its physical address. -/
structure Loaded (disk : Nat → Nat → Block) (i : Nat) (mem : PhysMem) : Prop where
  page : ∀ a : UInt32, 0x10000 ≤ a.toNat → a.toNat < 0x11000 → mem a = kernelByte disk (a.toNat - 0x10000)
  segs : ∀ j < i, ∀ k < (progHdr disk j).memsz.toNat,
    mem ((progHdr disk j).paddr + UInt32.ofNat k) = (progHdr disk j).image disk k

variable {disk : Nat → Nat → Block}

/-- A byte of the first page, `c` bytes past an address in it. -/
theorem page_byte {mem : PhysMem} {x c : UInt32}
    (page : ∀ a : UInt32, 0x10000 ≤ a.toNat → a.toNat < 0x11000 → mem a = kernelByte disk (a.toNat - 0x10000))
    (lo : 0x10000 ≤ x.toNat) (hi : x.toNat + c.toNat < 0x11000) :
    mem (x + c) = kernelByte disk (x.toNat - 0x10000 + c.toNat) := by
  have sum : (x + c).toNat = x.toNat + c.toNat := by
    rw [UInt32.toNat_add]
    omega
  rw [page _ (by omega) (by omega), sum]
  exact congrArg (kernelByte disk) (by omega)

/-- A word of the first page, read from memory that holds it. -/
theorem readWord_page {mem : PhysMem} {x : UInt32}
    (page : ∀ a : UInt32, 0x10000 ≤ a.toNat → a.toNat < 0x11000 → mem a = kernelByte disk (a.toNat - 0x10000))
    (lo : 0x10000 ≤ x.toNat) (hi : x.toNat + 4 ≤ 0x11000) :
    readWord mem x = kernelWord disk (x.toNat - 0x10000) := by
  have b1 := page_byte (c := 1) page lo (by simp only [UInt32.reduceToNat]; omega)
  have b2 := page_byte (c := 2) page lo (by simp only [UInt32.reduceToNat]; omega)
  have b3 := page_byte (c := 3) page lo (by simp only [UInt32.reduceToNat]; omega)
  simp only [UInt32.reduceToNat] at b1 b2 b3
  rw [readWord, kernelWord, page x lo (by omega), b1, b2, b3]

theorem readHalf_page {mem : PhysMem} {x : UInt32}
    (page : ∀ a : UInt32, 0x10000 ≤ a.toNat → a.toNat < 0x11000 → mem a = kernelByte disk (a.toNat - 0x10000))
    (lo : 0x10000 ≤ x.toNat) (hi : x.toNat + 2 ≤ 0x11000) :
    readHalf mem x = kernelHalf disk (x.toNat - 0x10000) := by
  have b1 := page_byte (c := 1) page lo (by simp only [UInt32.reduceToNat]; omega)
  simp only [UInt32.reduceToNat] at b1
  rw [readHalf, kernelHalf, page x lo (by omega), b1]

/-- The fields of program header `i`, read from memory that holds the first page. -/
theorem progHdr_fields {mem : PhysMem} {i : Nat} {ph : UInt32}
    (page : ∀ a : UInt32, 0x10000 ≤ a.toNat → a.toNat < 0x11000 → mem a = kernelByte disk (a.toNat - 0x10000))
    (hdr : (kernelWord disk 28).toNat + 32 * i + 32 ≤ 4096)
    (at_ : ph.toNat = 0x10000 + (kernelWord disk 28).toNat + 32 * i) :
    readWord mem (ph + 4) = (progHdr disk i).off ∧ readWord mem (ph + 12) = (progHdr disk i).paddr ∧
      readWord mem (ph + 16) = (progHdr disk i).filesz ∧ readWord mem (ph + 20) = (progHdr disk i).memsz := by
  have field (c : UInt32) (hc : c.toNat + 4 ≤ 32) :
      readWord mem (ph + c) = kernelWord disk ((kernelWord disk 28).toNat + 32 * i + c.toNat) := by
    have sum : (ph + c).toNat = ph.toNat + c.toNat := by
      rw [UInt32.toNat_add]
      omega
    rw [readWord_page page (by omega) (by omega), sum]
    exact congrArg (kernelWord disk) (by omega)
  exact ⟨field 4 (by decide), field 12 (by decide), field 16 (by decide), field 20 (by decide)⟩

/-- **One turn of the loop.**  For program header `i` in the first page, in memory that holds
the first page, a `Loadable` segment that keeps off the page is read from the start of its
offset's sector on into the addresses from `low`, and then cleared from its file size to its
memory size. -/
theorem loadSegment_eq {mem : PhysMem} {i : Nat} {ph : UInt32}
    (page : ∀ a : UInt32, 0x10000 ≤ a.toNat → a.toNat < 0x11000 → mem a = kernelByte disk (a.toNat - 0x10000))
    (hdr : (kernelWord disk 28).toNat + 32 * i + 32 ≤ 4096)
    (at_ : ph.toNat = 0x10000 + (kernelWord disk 28).toNat + 32 * i)
    (ok : (progHdr disk i).Loadable)
    (offPage : (progHdr disk i).high ≤ 0x10000 ∨ 0x11000 ≤ (progHdr disk i).low) :
    loadSegment disk mem ph = some ((progHdr disk i).load disk mem) := by
  obtain ⟨fOff, fPaddr, fFilesz, fMemsz⟩ := progHdr_fields page hdr at_
  generalize hs : progHdr disk i = s at ok offPage fOff fPaddr fFilesz fMemsz ⊢
  obtain ⟨below, fits, lba, file⟩ := ok
  unfold Segment.load
  simp only [Segment.high, Segment.low, Segment.sectors] at fits lba offPage ⊢
  -- the segment's `readseg`
  obtain ⟨mem₁, read, h₁⟩ : ∃ mem₁, readseg disk mem s.paddr s.filesz s.off = some mem₁ ∧ mem₁ = _ :=
    ⟨_, readseg_window below (by omega) lba, rfl⟩
  -- which leaves the first page, and so the header, where it was
  have page₁ : ∀ a : UInt32, 0x10000 ≤ a.toNat → a.toNat < 0x11000 →
      mem₁ a = kernelByte disk (a.toNat - 0x10000) := by
    intro a lo hi
    rw [h₁]
    dsimp only
    rw [if_neg (by omega)]
    exact page a lo hi
  -- `memsz` and the second `filesz` are read after the `readseg`
  have fields₁ := progHdr_fields page₁ hdr at_
  rw [hs] at fields₁
  obtain ⟨-, -, gFilesz, gMemsz⟩ := fields₁
  unfold loadSegment
  rw [fPaddr, fFilesz, fOff]
  dsimp only
  rw [read]
  simp only [Option.bind_eq_bind, Option.bind_some]
  rw [gFilesz, gMemsz]
  have start : (s.paddr + s.filesz).toNat = s.paddr.toNat + s.filesz.toNat := by
    rw [UInt32.toNat_add]
    omega
  split_ifs with more
  · -- `memsz > filesz`: the rest of the memory size cleared
    have count : (s.memsz - s.filesz).toNat = s.memsz.toNat - s.filesz.toNat :=
      Window.sub_toNat (by rw [gt_iff_lt, UInt32.lt_iff_toNat_lt] at more; omega)
    refine congrArg some (funext fun a => ?_)
    rw [stosb_apply (by rw [start, count]; omega), start, count, h₁]
    dsimp only
    by_cases zero : s.paddr.toNat + s.filesz.toNat ≤ a.toNat ∧ a.toNat < s.paddr.toNat + s.memsz.toNat
    · rw [if_pos ⟨zero.1, by omega⟩, if_pos zero]
    · rw [if_neg (fun h => zero ⟨h.1, by omega⟩), if_neg zero]
      rfl
  · -- `memsz = filesz`: nothing to clear
    have same : s.memsz.toNat = s.filesz.toNat := by
      rw [gt_iff_lt, UInt32.lt_iff_toNat_lt] at more
      omega
    refine congrArg some (funext fun a => ?_)
    rw [h₁]
    dsimp only
    rw [if_neg (show ¬(s.paddr.toNat + s.filesz.toNat ≤ a.toNat ∧ a.toNat < s.paddr.toNat + s.memsz.toNat) by
      omega)]
    rfl

/-! ## The loop -/

/-- The first `n` program headers lie in the first page, and each segment among them is
`Loadable`, keeps off the page and off the segments before it. -/
structure Segments (disk : Nat → Nat → Block) (n : Nat) : Prop where
  headers : (kernelWord disk 28).toNat + 32 * n ≤ 4096
  loadable : ∀ i < n, (progHdr disk i).Loadable
  offPage : ∀ i < n, (progHdr disk i).high ≤ 0x10000 ∨ 0x11000 ≤ (progHdr disk i).low
  apart : ∀ i < n, ∀ j < i, (progHdr disk i).high ≤ (progHdr disk j).paddr.toNat ∨
    (progHdr disk j).paddr.toNat + (progHdr disk j).memsz.toNat ≤ (progHdr disk i).low

/-- The turn for segment `i` keeps the first page and the segments before `i`, and puts
segment `i` in place. -/
theorem Loaded.step {mem mem' : PhysMem} {n i : Nat} {ph : UInt32} (segs : Segments disk n) (hi : i < n)
    (loaded : Loaded disk i mem) (at_ : ph.toNat = 0x10000 + (kernelWord disk 28).toNat + 32 * i)
    (h : loadSegment disk mem ph = some mem') :
    Loaded disk (i + 1) mem' ∧ ∀ a : UInt32, ¬((progHdr disk i).low ≤ a.toNat ∧ a.toNat < (progHdr disk i).high) →
      mem' a = mem a := by
  have hdr : (kernelWord disk 28).toNat + 32 * i + 32 ≤ 4096 := by
    have := segs.headers
    omega
  rw [loadSegment_eq loaded.page hdr at_ (segs.loadable i hi) (segs.offPage i hi)] at h
  obtain rfl := Option.some.inj h
  refine ⟨⟨fun a lo hi' => ?_, fun j hj k hk => ?_⟩, fun a away => Segment.load_of_not_mem away⟩
  · have offPage := segs.offPage i hi
    rw [Segment.load_of_not_mem (by omega)]
    exact loaded.page a lo hi'
  · rcases Nat.lt_succ_iff_lt_or_eq.mp hj with before | rfl
    · -- an earlier segment, which this one keeps off
      have apart := segs.apart i hi j before
      have fits := (segs.loadable j (by omega)).fits
      have addr : ((progHdr disk j).paddr + UInt32.ofNat k).toNat = (progHdr disk j).paddr.toNat + k := by
        simp only [Segment.high] at fits
        exact Window.toNat_add_ofNat (by omega)
      rw [Segment.load_of_not_mem (by rw [addr]; omega)]
      exact loaded.segs j before k hk
    · -- this segment: its file bytes, then zeros
      exact Segment.load_image (segs.loadable j hi) hk

/-- **The loop.**  From program header `i` to `n`, on memory that holds the first page and
the segments before `i`, the loop returns with every one of the `n` segments in place, and
the memory outside the page and the segments `i .. n-1` as it was.  The induction is on the
segments left. -/
theorem loadLoop_loads {n : Nat} (segs : Segments disk n) :
    ∀ (m i fuel : Nat) (mem : PhysMem) (ph eph : UInt32), i + m = n → m < fuel → Loaded disk i mem →
      ph.toNat = 0x10000 + (kernelWord disk 28).toNat + 32 * i →
      eph.toNat = 0x10000 + (kernelWord disk 28).toNat + 32 * n →
      ∃ mem', loadLoop disk fuel mem ph eph = some mem' ∧ Loaded disk n mem' ∧
        ∀ a : UInt32, (∀ j, i ≤ j → j < n →
          ¬((progHdr disk j).low ≤ a.toNat ∧ a.toNat < (progHdr disk j).high)) → mem' a = mem a := by
  intro m
  induction m with
  | zero =>
    rintro i (_ | fuel) mem ph eph count more loaded at_ end_
    · cases more
    have done : ¬ph < eph := by
      rw [UInt32.lt_iff_toNat_lt]
      omega
    rw [Nat.add_zero] at count
    subst count
    exact ⟨mem, by rw [loadLoop, if_neg done], loaded, fun _ _ => rfl⟩
  | succ m ih =>
    rintro i (_ | fuel) mem ph eph count more loaded at_ end_
    · cases more
    have hi : i < n := by omega
    have going : ph < eph := by
      rw [UInt32.lt_iff_toNat_lt]
      omega
    have hdr := segs.headers
    have ok := segs.loadable i hi
    obtain ⟨mem₁, turn⟩ : ∃ mem₁, loadSegment disk mem ph = some mem₁ :=
      ⟨_, loadSegment_eq loaded.page (by omega) at_ ok (segs.offPage i hi)⟩
    obtain ⟨loaded₁, kept⟩ := loaded.step segs hi at_ turn
    have next : (ph + 32).toNat = 0x10000 + (kernelWord disk 28).toNat + 32 * (i + 1) := by
      rw [UInt32.toNat_add]
      simp only [UInt32.reduceToNat]
      omega
    obtain ⟨mem', run, loaded', rest⟩ := ih (i + 1) fuel mem₁ (ph + 32) eph (by omega) (by omega)
      loaded₁ next end_
    refine ⟨mem', ?_, loaded', fun a away => ?_⟩
    · rw [loadLoop, if_pos going]
      simp only [Option.bind_eq_bind, turn, Option.bind_some]
      exact run
    · rw [rest a (fun j lo hj => away j (by omega) hj), kept a (away i le_rfl hi)]

/-- **The boot loader loads the kernel.**  For a kernel whose first word is the ELF magic,
whose program headers lie in its first page, and whose segments are `Loadable`, keep off the
page `bootmain` reads them from and off the segments loaded before them: `bootmain` jumps to
the entry point the ELF header names, with every segment at its physical address, its file
bytes and then zeros up to its memory size, and memory outside the first page and the
segments' sectors as it was. -/
theorem bootmain_loads {mem : PhysMem} (magic : kernelWord disk 0 = elfMagic)
    (segs : Segments disk (kernelHalf disk 44).toNat) :
    ∃ mem', bootmain disk mem = some (some (kernelWord disk 24), mem') ∧
      (∀ i < (kernelHalf disk 44).toNat, ∀ k < (progHdr disk i).memsz.toNat,
        mem' ((progHdr disk i).paddr + UInt32.ofNat k) = (progHdr disk i).image disk k) ∧
      ∀ a : UInt32, ¬(0x10000 ≤ a.toNat ∧ a.toNat < 0x11000) →
        (∀ i < (kernelHalf disk 44).toNat,
          ¬((progHdr disk i).low ≤ a.toNat ∧ a.toNat < (progHdr disk i).high)) → mem' a = mem a := by
  -- the first page
  obtain ⟨mem₁, first, h₁⟩ : ∃ mem₁, readseg disk mem 0x10000 4096 0 = some mem₁ ∧ mem₁ = _ :=
    ⟨_, readseg_window (by decide) (by decide) (by decide), rfl⟩
  have page : ∀ a : UInt32, 0x10000 ≤ a.toNat → a.toNat < 0x11000 →
      mem₁ a = kernelByte disk (a.toNat - 0x10000) := by
    intro a lo hi
    rw [h₁]
    simp only [UInt32.reduceToNat, Nat.reduceMod, Nat.reduceSub, Nat.reduceAdd, Nat.reduceDiv, Nat.reduceMul]
    rw [if_pos ⟨lo, by omega⟩]
    exact congrArg (kernelByte disk) (by omega)
  have checked : readWord mem₁ 0x10000 = elfMagic := by
    rw [readWord_page page (by decide) (by decide)]
    exact magic
  have phoff : readWord mem₁ (0x10000 + 28) = kernelWord disk 28 :=
    readWord_page page (by decide) (by decide)
  have phnum : readHalf mem₁ (0x10000 + 44) = kernelHalf disk 44 :=
    readHalf_page page (by decide) (by decide)
  have hdr := segs.headers
  have phnum_lt := (kernelHalf disk 44).toNat_lt
  -- the program headers from `0x10000 + phoff`
  have ph : (0x10000 + kernelWord disk 28).toNat = 0x10000 + (kernelWord disk 28).toNat + 32 * 0 := by
    rw [UInt32.toNat_add]
    simp only [UInt32.reduceToNat]
    omega
  have eph : (0x10000 + kernelWord disk 28 + 32 * (kernelHalf disk 44).toUInt32).toNat =
      0x10000 + (kernelWord disk 28).toNat + 32 * (kernelHalf disk 44).toNat := by
    rw [UInt32.toNat_add, UInt32.toNat_add, UInt32.toNat_mul, UInt16.toNat_toUInt32]
    simp only [UInt32.reduceToNat]
    omega
  obtain ⟨mem₂, run, loaded, kept⟩ := loadLoop_loads segs _ 0 (2 ^ 27) mem₁ _ _ (Nat.zero_add _)
    (by omega) ⟨page, fun _ h => absurd h (Nat.not_lt_zero _)⟩ ph eph
  have entry : readWord mem₂ (0x10000 + 24) = kernelWord disk 24 :=
    readWord_page loaded.page (by decide) (by decide)
  refine ⟨mem₂, ?_, loaded.segs, fun a offPage away => ?_⟩
  · unfold bootmain
    simp only [Option.bind_eq_bind, first, Option.bind_some, checked, ne_eq, not_true_eq_false,
      if_false, phoff, phnum, run, entry]
    rfl
  · rw [kept a (fun j _ hj => away j hj), h₁]
    simp only [UInt32.reduceToNat, Nat.reduceMod, Nat.reduceSub, Nat.reduceAdd, Nat.reduceDiv, Nat.reduceMul]
    rw [if_neg (fun h => offPage ⟨h.1, by omega⟩)]

/-- The first page of a kernel of two segments: the ELF magic, the entry point `0x10000c`, its
program headers from byte `52`.  Segment `0` has `16` file bytes from byte `512` and `32` bytes of
memory at `0x100000`; segment `1` has `8` file bytes from byte `1088` and `16` bytes of memory at
`0x100100`, so that its sector, read from `0x1000c0`, covers the padding of segment `0`'s. -/
def twoHeader : Nat → UInt8
  | 0 => 0x7F | 1 => 0x45 | 2 => 0x4C | 3 => 0x46
  | 24 => 0x0C | 26 => 0x10
  | 28 => 52
  | 44 => 2
  | 57 => 0x02 | 66 => 0x10 | 68 => 16 | 72 => 32
  | 88 => 0x40 | 89 => 0x04 | 97 => 0x01 | 98 => 0x10 | 100 => 8 | 104 => 16
  | _ => 0

/-- The kernel: its header in sector `1`, then sectors of `0xAB` and of `0xCD`. -/
def twoKernel : Nat → Nat → Block := fun _ b k =>
  if b = 1 then twoHeader k.val else if b = 2 then 0xAB else if b = 3 then 0xCD else 0

theorem bootmain_loads_two :
    kernelWord twoKernel 0 = elfMagic ∧ Segments twoKernel (kernelHalf twoKernel 44).toNat ∧
      ∃ mem', bootmain twoKernel (fun _ => 0) = some (some 0x10000C, mem') ∧
        (∀ k < 32, mem' (0x100000 + UInt32.ofNat k) = if k < 16 then 0xAB else 0) ∧
        ∀ k < 16, mem' (0x100100 + UInt32.ofNat k) = if k < 8 then 0xCD else 0 := by
  have magic : kernelWord twoKernel 0 = elfMagic := by decide
  have two : (kernelHalf twoKernel 44).toNat = 2 := by decide
  have hdr0 : progHdr twoKernel 0 = ⟨512, 0x100000, 16, 32⟩ := by decide
  have hdr1 : progHdr twoKernel 1 = ⟨1088, 0x100100, 8, 16⟩ := by decide
  have segs : Segments twoKernel (kernelHalf twoKernel 44).toNat := by
    rw [two]
    refine ⟨by decide, fun i hi => ?_, fun i hi => ?_, fun i hi j hj => ?_⟩
    · obtain rfl | rfl : i = 0 ∨ i = 1 := by omega
      · rw [hdr0]; decide
      · rw [hdr1]; decide
    · obtain rfl | rfl : i = 0 ∨ i = 1 := by omega
      · rw [hdr0]; decide
      · rw [hdr1]; decide
    · -- segment `1`'s sector starts past segment `0`'s memory
      obtain ⟨rfl, rfl⟩ : i = 1 ∧ j = 0 := by omega
      rw [hdr0, hdr1]
      decide
  obtain ⟨mem', boot, loaded, -⟩ := bootmain_loads magic segs
  have entry : kernelWord twoKernel 24 = 0x10000C := by decide
  refine ⟨magic, segs, mem', by rw [boot, entry], fun k hk => ?_, fun k hk => ?_⟩
  · have placed := loaded 0 (by rw [two]; decide) k (by rw [hdr0]; exact hk)
    rw [hdr0] at placed
    rw [placed]
    -- segment `0`'s file bytes are bytes `512` to `527` of the kernel, all in sector `2`
    exact Segment.image_of_fill (b := 2) (fun _ => rfl)
      (fun j hj => by unfold bsize; simp only [UInt32.reduceToNat] at hj ⊢; omega) k
  · have placed := loaded 1 (by rw [two]; decide) k (by rw [hdr1]; exact hk)
    rw [hdr1] at placed
    rw [placed]
    -- and segment `1`'s bytes `1088` to `1095`, in sector `3`
    exact Segment.image_of_fill (b := 3) (fun _ => rfl)
      (fun j hj => by unfold bsize; simp only [UInt32.reduceToNat] at hj ⊢; omega) k

end Boot

end Xv6
