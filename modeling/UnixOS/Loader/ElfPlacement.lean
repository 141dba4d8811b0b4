import Mathlib.Data.Finset.Lattice.Fold
import Mathlib.Order.Lattice.Nat
import UnixOS.Lib.BitFields
import UnixOS.Loader.Elf

/-! # Where the loader stores

A position-independent file whose segments and relocations fit is stored inside the range that
`process_create` takes for it, and these ranges follow each other. A file of the other kind goes to the
addresses that it names.
-/

namespace UnixOS.Elf

open BitFields

/-! ### Stores inside a set of addresses -/

structure StoresIn (P : UInt64 → Prop) (m m' : Machine) : Prop where
  written : ∀ a, a ∈ m'.written → a ∈ m.written ∨ P a
  mem : ∀ a, ¬ P a → m'.mem a = m.mem a

section Stores

variable {P : UInt64 → Prop} {m m' m'' : Machine}

theorem StoresIn.refl (P : UInt64 → Prop) (m : Machine) : StoresIn P m m := ⟨fun _ => Or.inl, fun _ _ => rfl⟩

theorem StoresIn.trans (h : StoresIn P m m') (h' : StoresIn P m' m'') : StoresIn P m m'' where
  written := by
    intro a ha
    rcases h'.written a ha with hOld | hNew
    · exact h.written a hOld
    · exact Or.inr hNew
  mem := fun a ha => (h'.mem a ha).trans (h.mem a ha)

theorem storesIn_store {a : UInt64} (ha : P a) (b : UInt8) : StoresIn P m (m.store a b) where
  written := by
    intro x hx
    rcases List.mem_cons.mp hx with rfl | hOld
    · exact Or.inr ha
    · exact Or.inl hOld
  mem := by
    intro x hx
    refine Function.update_of_ne ?_ _ _
    rintro rfl
    exact hx ha

def Covers (P : UInt64 → Prop) (a : UInt64) (n : Nat) : Prop := ∀ j < n, P (a + UInt64.ofNat j)

theorem Covers.head {a : UInt64} {n : Nat} (h : Covers P a (n + 1)) : P a := by
  have hZero := h 0 (Nat.succ_pos n)
  rwa [show UInt64.ofNat 0 = 0 from rfl, UInt64.add_zero] at hZero

theorem Covers.tail {a : UInt64} {n : Nat} (h : Covers P a (n + 1)) : Covers P (a + 1) n := by
  intro j hj
  have hNext := h (j + 1) (Nat.succ_lt_succ hj)
  rwa [Nat.add_comm j 1, UInt64.ofNat_add, ← UInt64.add_assoc] at hNext

theorem Covers.sub {a : UInt64} {n : Nat} (h : Covers P a n) (k w : Nat) (hw : k + w ≤ n) :
    Covers P (a + UInt64.ofNat k) w := by
  intro j hj
  rw [UInt64.add_assoc, ← UInt64.ofNat_add]
  exact h (k + j) (by omega)

theorem storesIn_elfMemcpy {dest : UInt64} {n : Nat} (h : Covers P dest n) (src : UInt64) :
    StoresIn P m (m.elfMemcpy dest src n) := by
  induction n generalizing m dest src with
  | zero => exact StoresIn.refl P m
  | succ n ih => exact (storesIn_store h.head _).trans (ih h.tail _)

theorem storesIn_elfMemset {dest : UInt64} {n : Nat} (h : Covers P dest n) (c : UInt8) :
    StoresIn P m (m.elfMemset dest c n) := by
  induction n generalizing m dest with
  | zero => exact StoresIn.refl P m
  | succ n ih => exact (storesIn_store h.head _).trans (ih h.tail)

theorem storesIn_storeWord {a : UInt64} {w : Nat} (h : Covers P a w) (v : UInt64) :
    StoresIn P m (m.storeWord a v w) := by
  induction w generalizing m a v with
  | zero => exact StoresIn.refl P m
  | succ w ih => exact (storesIn_store h.head _).trans (ih h.tail _)

theorem StoresIn.read_eq (h : StoresIn P m m') {a : UInt64} {w : Nat} (hApart : Covers (fun x => ¬ P x) a w) :
    read m'.mem w a = read m.mem w a := by
  induction w generalizing a with
  | zero => rfl
  | succ w ih => rw [read, read, h.mem a hApart.head, ih hApart.tail]

end Stores

/-! ### The image of a file -/

def InImage (load : UInt64) (span : Nat) (a : UInt64) : Prop :=
  load.toNat ≤ a.toNat ∧ a.toNat < load.toNat + span

section Files

variable (mem : UInt64 → UInt8) (data : UInt64)

def segEnd (i : Nat) : Nat :=
  if pType mem (phdrAt mem data i) = ptLoad then
    (pVaddr mem (phdrAt mem data i)).toNat + (pMemsz mem (phdrAt mem data i)).toNat
  else 0

def span : Nat := (Finset.range (ePhnum mem data)).sup (segEnd mem data)

end Files

def RelocsFit (load : UInt64) (span : Nat) : Nat → UInt64 → Machine → Prop
  | 0, _, _ => True
  | n + 1, rela, m =>
    (read m.mem 4 (rela + 8) = rAarch64Relative → (read64 m.mem rela).toNat + 8 ≤ span) ∧
      RelocsFit load span n (rela + relaSize) (relocate m load rela)

structure Fits (l : Launch) (load : UInt64) : Prop where
  pie : eType l.mem l.data = etDyn
  filesz : ∀ i < ePhnum l.mem l.data, pType l.mem (phdrAt l.mem l.data i) = ptLoad →
    pFilesz l.mem (phdrAt l.mem l.data i) ≤ pMemsz l.mem (phdrAt l.mem l.data i)
  bound : load.toNat + span l.mem l.data + 0x1FFFF < 2 ^ 64
  /-- The headers are not where the image goes. -/
  header : Covers (fun a => ¬ InImage load (span l.mem l.data) a) l.data 64
  phdrs : ∀ i < ePhnum l.mem l.data,
    Covers (fun a => ¬ InImage load (span l.mem l.data) a) (phdrAt l.mem l.data i) phdrSize
  relocs : ∀ st info, loadSegments ⟨l.mem, []⟩ l.data l.size load = some st → st.dynamic ≠ 0 →
    dynamicInfo st.machine.mem st.dynamic = some info → info.relaAddr ≠ 0 → info.relaSize ≠ 0 →
    RelocsFit load (span l.mem l.data) (numRelas info) (load + info.relaAddr) st.machine

section Loading

variable {l : Launch} {load : UInt64}

theorem covers_image {span : Nat} {off : UInt64} {n : Nat} (hBound : load.toNat + span < 2 ^ 64)
    (hFit : off.toNat + n ≤ span) : Covers (InImage load span) (load + off) n := by
  intro j hj
  have hAddr : (load + off + UInt64.ofNat j).toNat = load.toNat + off.toNat + j := by
    rw [UInt64.toNat_add, UInt64.toNat_add, UInt64.toNat_ofNat']
    omega
  unfold InImage
  rw [hAddr]
  omega

structure SameHeaders (l : Launch) (mem : UInt64 → UInt8) : Prop where
  phnum : ePhnum mem l.data = ePhnum l.mem l.data
  phdrAt : ∀ i, Elf.phdrAt mem l.data i = Elf.phdrAt l.mem l.data i
  type : ∀ i < ePhnum l.mem l.data,
    pType mem (Elf.phdrAt l.mem l.data i) = pType l.mem (Elf.phdrAt l.mem l.data i)
  vaddr : ∀ i < ePhnum l.mem l.data,
    pVaddr mem (Elf.phdrAt l.mem l.data i) = pVaddr l.mem (Elf.phdrAt l.mem l.data i)
  filesz : ∀ i < ePhnum l.mem l.data,
    pFilesz mem (Elf.phdrAt l.mem l.data i) = pFilesz l.mem (Elf.phdrAt l.mem l.data i)
  memsz : ∀ i < ePhnum l.mem l.data,
    pMemsz mem (Elf.phdrAt l.mem l.data i) = pMemsz l.mem (Elf.phdrAt l.mem l.data i)

theorem Fits.sameHeaders (h : Fits l load) {m : Machine}
    (hStores : StoresIn (InImage load (span l.mem l.data)) ⟨l.mem, []⟩ m) : SameHeaders l m.mem := by
  have hHeader := fun k w hw => hStores.read_eq (h.header.sub k w hw)
  have hPhdr := fun i hi k w hw => hStores.read_eq ((h.phdrs i hi).sub k w hw)
  have hPhoff : ePhoff m.mem l.data = ePhoff l.mem l.data := congrArg UInt64.ofNat (hHeader 32 8 (by decide))
  have hEntsize : ePhentsize m.mem l.data = ePhentsize l.mem l.data := hHeader 54 2 (by decide)
  refine ⟨hHeader 56 2 (by decide), fun i => ?_, fun i hi => ?_, fun i hi => ?_, fun i hi => ?_, fun i hi => ?_⟩
  · unfold phdrAt
    rw [hPhoff, hEntsize]
  · have hType := hPhdr i hi 0 4 (by decide)
    rwa [show UInt64.ofNat 0 = 0 from rfl, UInt64.add_zero] at hType
  · exact congrArg UInt64.ofNat (hPhdr i hi 16 8 (by decide))
  · exact congrArg UInt64.ofNat (hPhdr i hi 32 8 (by decide))
  · exact congrArg UInt64.ofNat (hPhdr i hi 40 8 (by decide))

theorem segEnd_le_span {mem : UInt64 → UInt8} {data : UInt64} {i : Nat} (hi : i < ePhnum mem data) :
    segEnd mem data i ≤ span mem data := Finset.le_sup (Finset.mem_range.mpr hi)

theorem Fits.loadSegment (h : Fits l load) {m : Machine}
    (hStores : StoresIn (InImage load (span l.mem l.data)) ⟨l.mem, []⟩ m) {i : Nat}
    (hi : i < ePhnum l.mem l.data) (hLoad : pType l.mem (phdrAt l.mem l.data i) = ptLoad) (src : UInt64) :
    StoresIn (InImage load (span l.mem l.data)) ⟨l.mem, []⟩
      (loadSegment m (load + pVaddr l.mem (phdrAt l.mem l.data i)) src (phdrAt l.mem l.data i)) := by
  set phdr := phdrAt l.mem l.data i with hphdr
  have hEnd : (pVaddr l.mem phdr).toNat + (pMemsz l.mem phdr).toNat ≤ span l.mem l.data := by
    have hLe := segEnd_le_span hi
    rwa [segEnd, if_pos hLoad] at hLe
  have hFilesz : (pFilesz l.mem phdr).toNat ≤ (pMemsz l.mem phdr).toNat :=
    UInt64.le_iff_toNat_le.mp (h.filesz i hi hLoad)
  have hBound : load.toNat + span l.mem l.data < 2 ^ 64 := by
    have := h.bound
    omega
  unfold Elf.loadSegment
  dsimp only
  rw [(h.sameHeaders hStores).filesz i hi]
  have hCopy : StoresIn (InImage load (span l.mem l.data)) ⟨l.mem, []⟩
      (if pFilesz l.mem phdr > 0 then
        m.elfMemcpy (load + pVaddr l.mem phdr) src (pFilesz l.mem phdr).toNat else m) := by
    split_ifs
    · exact hStores.trans (storesIn_elfMemcpy (covers_image hBound (by omega)) src)
    · exact hStores
  generalize (if pFilesz l.mem phdr > 0 then
    m.elfMemcpy (load + pVaddr l.mem phdr) src (pFilesz l.mem phdr).toNat else m) = m₁ at hCopy ⊢
  rw [(h.sameHeaders hCopy).filesz i hi, (h.sameHeaders hCopy).memsz i hi]
  split_ifs with hMore
  · refine hCopy.trans (storesIn_elfMemset ?_ 0)
    rw [UInt64.add_assoc]
    refine covers_image hBound ?_
    have hSub : (pMemsz l.mem phdr - pFilesz l.mem phdr).toNat =
        (pMemsz l.mem phdr).toNat - (pFilesz l.mem phdr).toNat :=
      UInt64.toNat_sub_of_le _ _ (h.filesz i hi hLoad)
    rw [← hphdr, hSub, UInt64.toNat_add]
    omega
  · exact hCopy

theorem toNat_ite_gt (a b : UInt64) : (if a > b then a else b).toNat = max a.toNat b.toNat := by
  split_ifs with h
  · exact (max_eq_left (UInt64.lt_iff_toNat_lt.mp h).le).symm
  · exact (max_eq_right (UInt64.le_iff_toNat_le.mp (UInt64.not_lt.mp h))).symm

structure Loading (l : Launch) (load : UInt64) (i : Nat) (st : Progress) : Prop where
  stores : StoresIn (InImage load (span l.mem l.data)) ⟨l.mem, []⟩ st.machine
  total_le : st.totalSize.toNat ≤ span l.mem l.data
  total_ge : ∀ j < i, segEnd l.mem l.data j ≤ st.totalSize.toNat

theorem Fits.loadHeader (h : Fits l load) {i : Nat} {st st' : Progress} (hi : i < ePhnum l.mem l.data)
    (hSt : Loading l load i st) (hRound : loadHeader true l.data l.size load st i = some st') :
    Loading l load (i + 1) st' := by
  have hSame := h.sameHeaders hSt.stores
  have hSkip : pType l.mem (phdrAt l.mem l.data i) ≠ ptLoad →
      ∀ j < i + 1, segEnd l.mem l.data j ≤ st.totalSize.toNat := by
    intro hOther j hj
    rcases Nat.lt_succ_iff_lt_or_eq.mp hj with hLt | rfl
    · exact hSt.total_ge j hLt
    · rw [segEnd, if_neg hOther]
      exact Nat.zero_le _
  unfold Elf.loadHeader at hRound
  simp only [if_true] at hRound
  rw [hSame.phdrAt i, hSame.type i hi, hSame.vaddr i hi] at hRound
  split at hRound
  · cases hRound
  split at hRound
  · next hDyn =>
    obtain rfl := Option.some.inj hRound
    refine ⟨hSt.stores, hSt.total_le, hSkip ?_⟩
    rw [hDyn]
    decide
  split at hRound
  · next hOther =>
    obtain rfl := Option.some.inj hRound
    exact ⟨hSt.stores, hSt.total_le, hSkip hOther⟩
  next hLoad =>
  rw [not_not] at hLoad
  split at hRound
  · cases hRound
  have hStores := h.loadSegment hSt.stores hi hLoad (l.data + pOffset st.machine.mem (phdrAt l.mem l.data i))
  generalize Elf.loadSegment _ _ _ _ = m at hRound hStores
  have hAfter := h.sameHeaders hStores
  rw [hAfter.vaddr i hi, hAfter.memsz i hi] at hRound
  obtain rfl := Option.some.inj hRound
  have hLe := segEnd_le_span hi
  have hBound := h.bound
  have hSum : (pVaddr l.mem (phdrAt l.mem l.data i) + pMemsz l.mem (phdrAt l.mem l.data i)).toNat =
      segEnd l.mem l.data i := by
    rw [segEnd, if_pos hLoad] at hLe ⊢
    rw [UInt64.toNat_add]
    omega
  have hTotal := toNat_ite_gt (pVaddr l.mem (phdrAt l.mem l.data i) + pMemsz l.mem (phdrAt l.mem l.data i))
    st.totalSize
  rw [hSum] at hTotal
  refine ⟨hStores, ?_, fun j hj => ?_⟩
  · show UInt64.toNat _ ≤ _
    rw [hTotal]
    exact max_le hLe hSt.total_le
  · show _ ≤ UInt64.toNat _
    rw [hTotal]
    rcases Nat.lt_succ_iff_lt_or_eq.mp hj with hLt | rfl
    · exact le_max_of_le_right (hSt.total_ge j hLt)
    · exact le_max_left _ _

theorem Fits.loadLoop (h : Fits l load) {fuel i : Nat} {st st' : Progress}
    (hFuel : ePhnum l.mem l.data ≤ fuel + i) (hSt : Loading l load i st)
    (hLoop : loadLoop true l.data l.size load fuel i st = some st') :
    Loading l load (ePhnum l.mem l.data) st' := by
  induction fuel generalizing i st with
  | zero =>
    obtain rfl := Option.some.inj hLoop
    exact ⟨hSt.stores, hSt.total_le, fun j hj => hSt.total_ge j (by omega)⟩
  | succ fuel ih =>
    rw [Elf.loadLoop, (h.sameHeaders hSt.stores).phnum] at hLoop
    split_ifs at hLoop with hi
    · obtain ⟨st₁, hRound, hRest⟩ := Option.bind_eq_some_iff.mp hLoop
      exact ih (by omega) (h.loadHeader hi hSt hRound) hRest
    · obtain rfl := Option.some.inj hLoop
      exact ⟨hSt.stores, hSt.total_le, fun j hj => hSt.total_ge j (by omega)⟩

theorem Fits.loadSegments (h : Fits l load) {st : Progress}
    (hLoad : loadSegments ⟨l.mem, []⟩ l.data l.size load = some st) :
    StoresIn (InImage load (span l.mem l.data)) ⟨l.mem, []⟩ st.machine ∧
      st.totalSize.toNat = span l.mem l.data := by
  have hPie : decide (eType l.mem l.data = etDyn) = true := decide_eq_true h.pie
  have hStart : Loading l load 0 ⟨⟨l.mem, []⟩, 0, 0⟩ :=
    ⟨StoresIn.refl _ _, Nat.zero_le _, fun j hj => absurd hj (Nat.not_lt_zero j)⟩
  have hFuel : ePhnum l.mem l.data ≤ 2 ^ 16 + 0 := by
    have hFirst := (l.mem (l.data + 56)).toNat_lt
    have hSecond := (l.mem (l.data + 56 + 1)).toNat_lt
    show (l.mem (l.data + 56)).toNat + 256 * ((l.mem (l.data + 56 + 1)).toNat + 256 * 0) ≤ _
    omega
  unfold Elf.loadSegments at hLoad
  rw [hPie] at hLoad
  have hEnd := h.loadLoop hFuel hStart hLoad
  refine ⟨hEnd.stores, le_antisymm hEnd.total_le (Finset.sup_le fun j hj => ?_)⟩
  exact hEnd.total_ge j (Finset.mem_range.mp hj)

/-! ### Relocations -/

theorem storesIn_relocLoop {span n : Nat} {rela : UInt64} {m : Machine} (hBound : load.toNat + span < 2 ^ 64)
    (hFit : RelocsFit load span n rela m) : StoresIn (InImage load span) m (relocLoop load n rela m) := by
  induction n generalizing rela m with
  | zero => exact StoresIn.refl _ _
  | succ n ih =>
    obtain ⟨hHere, hRest⟩ := hFit
    refine StoresIn.trans ?_ (ih hRest)
    unfold relocate
    dsimp only
    split_ifs with hType
    · exact storesIn_storeWord (covers_image hBound (hHere hType)) _
    · exact StoresIn.refl _ _

theorem Fits.elfLoadAt (h : Fits l load) {m : Machine} {info : LoadInfo}
    (hLoad : elfLoadAt ⟨l.mem, []⟩ l.data l.size load = some (some (m, info))) :
    StoresIn (InImage load (span l.mem l.data)) ⟨l.mem, []⟩ m ∧ info.loadSize.toNat = span l.mem l.data := by
  have hBound : load.toNat + span l.mem l.data < 2 ^ 64 := by
    have := h.bound
    omega
  unfold Elf.elfLoadAt at hLoad
  split_ifs at hLoad
  · cases Option.some.inj hLoad
  dsimp only at hLoad
  cases hSegs : Elf.loadSegments ⟨l.mem, []⟩ l.data l.size load with
  | none =>
    rw [hSegs] at hLoad
    cases Option.some.inj hLoad
  | some st =>
    rw [hSegs] at hLoad
    obtain ⟨hStores, hTotal⟩ := h.loadSegments hSegs
    obtain ⟨m', hReloc, hEq⟩ := Option.map_eq_some_iff.mp hLoad
    obtain ⟨rfl, rfl⟩ := Prod.mk.inj (Option.some.inj hEq)
    refine ⟨?_, hTotal⟩
    split_ifs at hReloc with hDynamic
    · obtain ⟨rela, hInfo, hRest⟩ := Option.bind_eq_some_iff.mp hReloc
      split_ifs at hRest with hNone hZero
      · obtain rfl := Option.some.inj hRest
        exact hStores
      · obtain rfl := Option.some.inj hRest
        rw [not_or] at hNone
        exact hStores.trans (storesIn_relocLoop hBound (h.relocs st rela hSegs hDynamic.2 hInfo hNone.1 hNone.2))
    · obtain rfl := Option.some.inj hReloc
      exact hStores

end Loading

/-! ### Ranges -/

theorem align64K_toNat {x : UInt64} (h : x.toNat + 0xFFFF < 2 ^ 64) :
    (align64K x).toNat = (x.toNat + 0xFFFF) / 2 ^ 16 * 2 ^ 16 := by
  rw [align64K, toNat_and_not_low _ (by decide : 16 ≤ 64) (by decide), UInt64.toNat_add]
  rw [show (0xFFFF : UInt64).toNat = 0xFFFF by decide, Nat.mod_eq_of_lt h]

/-- The condition on a call of `process_create`: the addresses do not wrap, and the file fits. -/
structure Orderly (nextLoadAddr : UInt64) (l : Launch) : Prop where
  room : nextLoadAddr.toNat + (aslrExecOffset l.random).toNat + 0xFFFF < 2 ^ 64
  fits : Fits l (l.loadAddr nextLoadAddr)

def OrderlyAlong (nextLoadAddr : UInt64) : List Launch → Prop
  | [] => True
  | l :: rest => Orderly nextLoadAddr l ∧ ∀ p, place nextLoadAddr l = some p → OrderlyAlong p.nextLoadAddr rest

def Placed.Inside (p : Placed) : Prop :=
  ∀ a ∈ p.written, p.loadAddr.toNat ≤ a.toNat ∧ a.toNat < p.nextLoadAddr.toNat

def Placed.Apart (p q : Placed) : Prop := ∀ a ∈ p.written, a ∉ q.written

theorem Orderly.loadAddr_eq {next : UInt64} {l : Launch} (h : Orderly next l) :
    (l.loadAddr next).toNat = (next.toNat + (aslrExecOffset l.random).toNat + 0xFFFF) / 2 ^ 16 * 2 ^ 16 := by
  have hRoom := h.room
  have hSum : (next + aslrExecOffset l.random).toNat = next.toNat + (aslrExecOffset l.random).toNat := by
    rw [UInt64.toNat_add]
    omega
  rw [Launch.loadAddr, align64K_toNat (by rw [hSum]; exact hRoom), hSum]

theorem align64K_behind {load size : UInt64} (h : load.toNat + size.toNat + 0x1FFFF < 2 ^ 64) :
    load.toNat + size.toNat ≤ (align64K (load + size + 0x10000)).toNat := by
  have hSum : (load + size + 0x10000).toNat = load.toNat + size.toNat + 0x10000 := by
    rw [UInt64.toNat_add, UInt64.toNat_add]
    have hConst : (0x10000 : UInt64).toNat = 0x10000 := rfl
    omega
  rw [align64K_toNat (by omega), hSum]
  omega

theorem Orderly.place {next : UInt64} {l : Launch} {p : Placed} (h : Orderly next l)
    (hPlace : place next l = some p) : p.loadAddr = l.loadAddr next ∧ p.Inside ∧
      p.loadAddr.toNat ≤ p.nextLoadAddr.toNat := by
  unfold Elf.place at hPlace
  split_ifs at hPlace
  split at hPlace
  · next m info hLoad =>
    obtain rfl := Option.some.inj hPlace
    obtain ⟨hStores, hSize⟩ := h.fits.elfLoadAt hLoad
    have hBound := h.fits.bound
    rw [← hSize] at hStores hBound
    have hNext := align64K_behind hBound
    refine ⟨rfl, fun a ha => ?_, (Nat.le_add_right _ _).trans hNext⟩
    rcases hStores.written a ha with hNone | hInside
    · cases hNone
    · exact ⟨hInside.1, lt_of_lt_of_le hInside.2 hNext⟩
  · cases hPlace

theorem placeAll_behind {next : UInt64} {ls : List Launch} {ps : List Placed} (h : OrderlyAlong next ls)
    (hPlace : placeAll next ls = some ps) :
    (∀ p ∈ ps, p.Inside ∧ next.toNat ≤ p.loadAddr.toNat) ∧ ps.Pairwise Placed.Apart := by
  induction ls generalizing next ps with
  | nil =>
    obtain rfl := Option.some.inj hPlace
    exact ⟨fun p hp => absurd hp List.not_mem_nil, List.Pairwise.nil⟩
  | cons l ls ih =>
    obtain ⟨hOrderly, hRest⟩ := h
    rw [placeAll] at hPlace
    obtain ⟨p, hp, hMap⟩ := Option.bind_eq_some_iff.mp hPlace
    obtain ⟨qs, hqs, rfl⟩ := Option.map_eq_some_iff.mp hMap
    obtain ⟨hAddr, hInside, hLe⟩ := hOrderly.place hp
    obtain ⟨hAll, hApart⟩ := ih (hRest p hp) hqs
    have hFirst : next.toNat ≤ p.loadAddr.toNat := by
      rw [hAddr, hOrderly.loadAddr_eq]
      omega
    refine ⟨fun q hq => ?_, List.Pairwise.cons (fun q hq a ha ha' => ?_) hApart⟩
    · rcases List.mem_cons.mp hq with rfl | hq
      · exact ⟨hInside, hFirst⟩
      · exact ⟨(hAll q hq).1, hFirst.trans (hLe.trans (hAll q hq).2)⟩
    · -- `q` begins where the range of `p` ends, or after it
      have hEnd := (hInside a ha).2
      have hBegin := ((hAll q hq).1 a ha').1
      have hGap := (hAll q hq).2
      omega

/-- In every sequence of successful calls that are all orderly, the images are inside their ranges and
do not meet. -/
theorem images_disjoint {ls : List Launch} {ps : List Placed} (h : OrderlyAlong programLoadBase ls)
    (hPlace : placeAll programLoadBase ls = some ps) :
    (∀ p ∈ ps, p.Inside) ∧ ps.Pairwise Placed.Apart :=
  ⟨fun p hp => ((placeAll_behind h hPlace).1 p hp).1, (placeAll_behind h hPlace).2⟩

/-! ### Two small files -/

def smallFile (type : UInt8) (vaddr : List UInt8) : List UInt8 :=
  [0x7F, 0x45, 0x4C, 0x46, 2, 1, 1, 0, 0, 0, 0, 0, 0, 0, 0, 0, type, 0, 183, 0, 1, 0, 0, 0] ++
    [0, 0, 0, 0, 0, 0, 0, 0, 64, 0, 0, 0, 0, 0, 0, 0, 0, 0, 0, 0, 0, 0, 0, 0] ++
    [0, 0, 0, 0, 64, 0, 56, 0, 1, 0, 0, 0, 0, 0, 0, 0] ++
    [1, 0, 0, 0, 7, 0, 0, 0, 0, 0, 0, 0, 0, 0, 0, 0] ++ vaddr ++ [0, 0, 0, 0, 0, 0, 0, 0] ++
    [4, 0, 0, 0, 0, 0, 0, 0, 8, 0, 0, 0, 0, 0, 0, 0, 0, 0, 0, 0, 0, 0, 0, 0]

def smallLaunch (file : List UInt8) : Launch where
  mem := fun a => file.getD (a - 0x42000000).toNat 0
  data := 0x42000000
  size := 120
  random := 0

def smallPie : Launch := smallLaunch (smallFile 3 [0, 0, 0, 0, 0, 0, 0, 0])

/-- Its segment is for address `0x400000`. -/
def smallExec : Launch := smallLaunch (smallFile 2 [0, 0, 0x40, 0, 0, 0, 0, 0])

instance (load : UInt64) (n : Nat) (a : UInt64) : Decidable (InImage load n a) :=
  inferInstanceAs (Decidable (_ ∧ _))

instance (P : UInt64 → Prop) [DecidablePred P] (a : UInt64) (n : Nat) : Decidable (Covers P a n) :=
  inferInstanceAs (Decidable (∀ j < n, _))

/-- At the first load address, and at the one behind an image of this file. -/
theorem orderly_smallPie {next : UInt64} (hNext : next = programLoadBase ∨ next = 0x44020000) :
    Orderly next smallPie where
  room := by rcases hNext with rfl | rfl <;> decide +kernel
  fits :=
    { pie := by decide +kernel
      filesz := by decide +kernel
      bound := by rcases hNext with rfl | rfl <;> decide +kernel
      header := by rcases hNext with rfl | rfl <;> decide +kernel
      phdrs := by rcases hNext with rfl | rfl <;> decide +kernel
      relocs := by
        intro st info hLoad hDynamic
        have hNone : (loadSegments ⟨smallPie.mem, []⟩ smallPie.data smallPie.size
            (smallPie.loadAddr next)).map Progress.dynamic = some 0 := by
          rcases hNext with rfl | rfl <;> decide +kernel
        rw [hLoad] at hNone
        exact absurd (Option.some.inj hNone) hDynamic }

theorem images_disjoint_smallPie : ∃ p q, placeAll programLoadBase [smallPie, smallPie] = some [p, q] ∧
    p.written ≠ [] ∧ q.written ≠ [] ∧ p.Inside ∧ q.Inside ∧ p.Apart q := by
  have hPlace : placeAll programLoadBase [smallPie, smallPie] = some [
      ⟨0x44000000, 0x44020000, [0x44000007, 0x44000006, 0x44000005, 0x44000004, 0x44000003, 0x44000002, 0x44000001,
        0x44000000]⟩,
      ⟨0x44020000, 0x44040000, [0x44020007, 0x44020006, 0x44020005, 0x44020004, 0x44020003, 0x44020002, 0x44020001,
        0x44020000]⟩] := by
    decide +kernel
  have hAlong : OrderlyAlong programLoadBase [smallPie, smallPie] := by
    refine ⟨orderly_smallPie (Or.inl rfl), fun p hp => ⟨orderly_smallPie (Or.inr ?_), fun _ _ => trivial⟩⟩
    have hNext : (place programLoadBase smallPie).map Placed.nextLoadAddr = some 0x44020000 := by decide +kernel
    rw [hp] at hNext
    exact Option.some.inj hNext
  obtain ⟨hInside, hApart⟩ := images_disjoint hAlong hPlace
  exact ⟨_, _, hPlace, List.cons_ne_nil _ _, List.cons_ne_nil _ _, hInside _ List.mem_cons_self,
    hInside _ (List.mem_cons_of_mem _ List.mem_cons_self), (List.pairwise_cons.mp hApart).1 _ List.mem_cons_self⟩

theorem exec_images_overlap :
    ∃ p q, placeAll programLoadBase [smallExec, smallExec] = some [p, q] ∧ ¬ p.Inside ∧ ¬ p.Apart q := by
  have hPlace : placeAll programLoadBase [smallExec, smallExec] = some [
      ⟨0x44000000, 0x44420000, [0x400007, 0x400006, 0x400005, 0x400004, 0x400003, 0x400002, 0x400001, 0x400000]⟩,
      ⟨0x44420000, 0x44840000,
        [0x400007, 0x400006, 0x400005, 0x400004, 0x400003, 0x400002, 0x400001, 0x400000]⟩] := by
    decide +kernel
  refine ⟨_, _, hPlace, fun hInside => ?_, fun hApart => ?_⟩
  · exact absurd (hInside 0x400007 List.mem_cons_self).1 (by decide)
  · exact hApart 0x400007 List.mem_cons_self List.mem_cons_self

end UnixOS.Elf
