import UnixOS.Mm.VmmHardware

/-! # What the calls for ranges do

A call that fails takes away the pages it has added and nothing else. One that succeeds maps whole pages from the first
one on, as many as the size fills when it is rounded up by itself.
-/

namespace UnixOS.Paging

open TableForest BitFields

variable {img : Image} {s s' s₀ : Vmm}

/-! ### Slots -/

def SameSlot (u v : UInt64) : Prop := path u = path v ∧ pteIndex u 3 = pteIndex v 3

theorem SameSlot.translate {u v : UInt64} (h : SameSlot u v) (s : Vmm) (pgd : UInt64) :
    s.translate pgd u = s.translate pgd v := translate_of_indices h.1 h.2 pgd

theorem Sets.other {u v pte : UInt64} (h : Sets img s s' none (path v) (pteIndex v 3) pte) (hOther : ¬ SameSlot u v) :
    s'.translate img.kernelPgd u = s.translate img.kernelPgd u :=
  h.others none _ _ _ rfl (own_path_kernel u) rfl fun hSame => hOther hSame.2

structure Added (img : Image) (s₀ s : Vmm) (done : List UInt64) : Prop where
  inv : Inv img s
  others : ∀ u, (∀ a ∈ done, ¬ SameSlot u a) → s.translate img.kernelPgd u = s₀.translate img.kernelPgd u
  new : ∀ a ∈ done, s₀.translate img.kernelPgd a = none
  pages : ∀ a ∈ done, ∀ e n, s.translate img.kernelPgd a = some (e, n) → n = 0

theorem unmapPage_mapped {vaddr e : UInt64} (hMapped : s.translate img.kernelPgd vaddr = some (e, 0)) :
    (s.vmmUnmapPage img vaddr).1 = 0 := by
  unfold Vmm.vmmUnmapPage Vmm.walkPageTable
  rw [walkLevels_false]
  cases hFollow : follow tableOf s.tables img.kernelPgd (path vaddr) with
  | none => exact absurd hMapped (resolve_of_follow_none hFollow e)
  | some t =>
    have hReach : s.Reach img none (path vaddr) t := hFollow
    rw [translate_def, resolve_of_reach hReach rfl] at hMapped
    unfold path at hFollow
    rw [hFollow]
    dsimp only
    split_ifs at hMapped with hValid
    rw [hValid]
    rfl

theorem Added.unmap {a : UInt64} {rest : List UInt64} (h : Added img s₀ s (a :: rest)) :
    Added img s₀ (s.vmmUnmapPage img a).2 rest := by
  have hGone : (s.vmmUnmapPage img a).2.translate img.kernelPgd a = none ∧
      ∀ u, ¬ SameSlot u a → (s.vmmUnmapPage img a).2.translate img.kernelPgd u = s.translate img.kernelPgd u := by
    rcases (h.inv.vmmUnmapPage (Prod.eta (s.vmmUnmapPage img a)).symm).2 with ⟨-, -, hSets⟩ | ⟨hRet, hSame⟩
    · exact ⟨hSets.self img.kernelPgd rfl, fun u hOther => hSets.other hOther⟩
    · rw [hSame]
      refine ⟨?_, fun _ _ => rfl⟩
      cases hWalk : s.translate img.kernelPgd a with
      | none => rfl
      | some r =>
        obtain ⟨e, n⟩ := r
        obtain rfl := h.pages a List.mem_cons_self e n hWalk
        rw [unmapPage_mapped hWalk] at hRet
        cases hRet
  obtain ⟨hNone, hKept⟩ := hGone
  refine ⟨(h.inv.vmmUnmapPage (Prod.eta _).symm).1, fun u hu => ?_, fun b hb => h.new b (List.mem_cons_of_mem a hb),
    fun b hb e n hWalk => ?_⟩
  · by_cases hHere : SameSlot u a
    · rw [hHere.translate, hNone, hHere.translate, h.new a List.mem_cons_self]
    · rw [hKept u hHere]
      exact h.others u (List.forall_mem_cons.mpr ⟨hHere, hu⟩)
  · by_cases hHere : SameSlot b a
    · rw [hHere.translate, hNone] at hWalk
      cases hWalk
    · rw [hKept b hHere] at hWalk
      exact h.pages b (List.mem_cons_of_mem a hb) e n hWalk

theorem Added.unmapPages {vaddr : UInt64} {offsets : List UInt64} (h : Added img s₀ s (offsets.map (vaddr + ·))) :
    Added img s₀ (Vmm.unmapPages img vaddr offsets s) [] := by
  induction offsets generalizing s with
  | nil => exact h
  | cons offset rest ih => exact ih h.unmap

theorem Added.quiet {done : List UInt64} (h : Added img s₀ s done) (hInv : Inv img s') (hQuiet : Quiet img s s') :
    Added img s₀ s' done := by
  have hSame : ∀ u, s'.translate img.kernelPgd u = s.translate img.kernelPgd u :=
    fun u => hQuiet.resolve none _ _ _ rfl (own_path_kernel u) rfl
  refine ⟨hInv, fun u hu => (hSame u).trans (h.others u hu), h.new, fun a ha e n hWalk => ?_⟩
  rw [hSame] at hWalk
  exact h.pages a ha e n hWalk

theorem Added.map {done : List UInt64} {a pte : UInt64} (h : Added img s₀ s done) (hInv : Inv img s')
    (hNone : s.translate img.kernelPgd a = none) (hSets : Sets img s s' none (path a) (pteIndex a 3) pte)
    (hNew : ∀ b ∈ done, s.translate img.kernelPgd b ≠ none) : Added img s₀ s' (done ++ [a]) := by
  have hOther : ∀ b ∈ done, ¬ SameSlot b a := by
    intro b hb hHere
    exact hNew b hb ((hHere.translate s _).trans hNone)
  refine ⟨hInv, fun u hu => ?_, fun b hb => ?_, fun b hb e n hWalk => ?_⟩
  · rw [hSets.other (hu a (List.mem_append_right _ (List.mem_singleton_self a)))]
    exact h.others u fun b hb => hu b (List.mem_append_left _ hb)
  · rcases List.mem_append.mp hb with hOld | hLast
    · exact h.new b hOld
    · rw [List.mem_singleton.mp hLast, ← h.others a fun b hb hHere => hOther b hb ⟨hHere.1.symm, hHere.2.symm⟩]
      exact hNone
  · rcases List.mem_append.mp hb with hOld | hLast
    · rw [hSets.other (hOther b hOld)] at hWalk
      exact h.pages b hOld e n hWalk
    · have hSelf : s'.translate img.kernelPgd a = if pteIsValid pte then some (pte, 0) else none :=
        hSets.self img.kernelPgd rfl
      rw [List.mem_singleton.mp hLast, hSelf] at hWalk
      split_ifs at hWalk
      exact (Prod.mk.inj (Option.some.inj hWalk)).2.symm

/-! ### The loop -/

def pageOffset (i : Nat) : UInt64 := UInt64.ofNat (i * 4096)

theorem toNat_pageOffset {i : Nat} (h : i * 4096 < 2 ^ 64) : (pageOffset i).toNat = i * 4096 := by
  rw [pageOffset, UInt64.toNat_ofNat']
  exact Nat.mod_eq_of_lt h

theorem toNat_pageAlignDown (addr : UInt64) : (pageAlignDown addr).toNat = addr.toNat / 4096 * 4096 :=
  toNat_and_pageMask addr

theorem pageAlignDown_idem (addr : UInt64) : pageAlignDown (pageAlignDown addr) = pageAlignDown addr := by
  rw [← UInt64.toNat_inj, toNat_pageAlignDown, toNat_pageAlignDown]
  omega

theorem toNat_pageAlign {size : UInt64} (h : size.toNat + 4095 < 2 ^ 64) :
    (pageAlign size).toNat = (size.toNat + 4095) / 4096 * 4096 := by
  have hSum : size + pageSize - 1 = size + 4095 := by
    rw [UInt64.sub_eq_add_neg, UInt64.add_assoc]
    rfl
  rw [pageAlign, toNat_and_pageMask, hSum, UInt64.toNat_add, show (4095 : UInt64).toNat = 4095 from rfl,
    Nat.mod_eq_of_lt h]

theorem pageAlign_multiple (size : UInt64) : ∃ n, n * 4096 < 2 ^ 64 ∧ (pageAlign size).toNat = n * 4096 :=
  ⟨_, Nat.lt_of_le_of_lt (Nat.div_mul_le_self _ _) (UInt64.toNat_lt _), toNat_and_pageMask _⟩

theorem pageAddrs_zero {stop : UInt64} {n : Nat} (h : stop.toNat = n * 4096) :
    pageAddrs 0 stop = (List.range n).map pageOffset := by
  have hCount : (stop.toNat - (0 : UInt64).toNat + 4095) / 4096 = n := by
    rw [h]
    show (n * 4096 - 0 + 4095) / 4096 = n
    omega
  unfold pageAddrs
  rw [hCount]
  exact List.map_congr_left fun i _ => UInt64.zero_add _

theorem rollback_offsets {k : Nat} (h : (k + 1) * 4096 < 2 ^ 64) :
    pageAddrs 0 (pageAlign (pageOffset k)) = (List.range k).map pageOffset := by
  apply pageAddrs_zero
  have hSum : k * 4096 + 4096 < 2 ^ 64 := by rwa [Nat.succ_mul] at h
  have hOffset := toNat_pageOffset (Nat.lt_of_le_of_lt (Nat.le_add_right _ _) hSum)
  have hRoom : (pageOffset k).toNat + 4095 < 2 ^ 64 := by
    rw [hOffset]
    exact Nat.lt_of_le_of_lt (Nat.add_le_add_left (by decide) _) hSum
  rw [toNat_pageAlign hRoom, hOffset]
  omega

section Loop

variable {vaddr paddr : UInt64} {flags : UInt32}

def rangeAddrs (vaddr : UInt64) (n : Nat) : List UInt64 := ((List.range n).map pageOffset).map (vaddr + ·)

theorem rangeAddrs_succ (vaddr : UInt64) (n : Nat) : rangeAddrs vaddr (n + 1) = rangeAddrs vaddr n ++ [vaddr + pageOffset n] := by
  simp [rangeAddrs, List.range_succ]

structure MappedTo (img : Image) (s₀ s : Vmm) (vaddr paddr : UInt64) (flags : UInt32) (n : Nat) : Prop where
  added : Added img s₀ s (rangeAddrs vaddr n)
  entries : ∀ i < n, s.translate img.kernelPgd (vaddr + pageOffset i) =
    some (physToPte (paddr + pageOffset i) (vmFlagsToPte flags), 0)

theorem MappedTo.start (h : Inv img s) (vaddr paddr : UInt64) (flags : UInt32) :
    MappedTo img s s vaddr paddr flags 0 :=
  ⟨⟨h, fun _ _ => rfl, fun _ ha => absurd ha List.not_mem_nil, fun _ ha => absurd ha List.not_mem_nil⟩,
    fun i hi => absurd hi (Nat.not_lt_zero i)⟩

theorem MappedTo.map {k : Nat} (h : MappedTo img s₀ s vaddr paddr flags k) (hInv : Inv img s')
    (hNone : s.translate img.kernelPgd (vaddr + pageOffset k) = none)
    (hSets : Sets img s s' none (path (vaddr + pageOffset k)) (pteIndex (vaddr + pageOffset k) 3)
      (physToPte (paddr + pageOffset k) (vmFlagsToPte flags))) :
    MappedTo img s₀ s' vaddr paddr flags (k + 1) := by
  have hTaken : ∀ i < k, ¬ SameSlot (vaddr + pageOffset i) (vaddr + pageOffset k) := by
    intro i hi hHere
    have hEntry := h.entries i hi
    rw [hHere.translate, hNone] at hEntry
    cases hEntry
  refine ⟨?_, fun i hi => ?_⟩
  · rw [rangeAddrs_succ]
    refine h.added.map hInv hNone hSets fun b hb => ?_
    simp only [rangeAddrs, List.map_map, List.mem_map, List.mem_range] at hb
    obtain ⟨i, hi, rfl⟩ := hb
    have hEntry := h.entries i hi
    exact fun hMissing => Option.some_ne_none _ (hEntry.symm.trans hMissing)
  · rcases Nat.lt_succ_iff_lt_or_eq.mp hi with hOld | rfl
    · rw [hSets.other (hTaken i hOld)]
      exact h.entries i hOld
    · have hSelf := hSets.self img.kernelPgd rfl
      rw [(physToPte_vmFlagsToPte _ flags).1, if_pos rfl] at hSelf
      exact hSelf

theorem MappedTo.loop {k m : Nat} {ret : Int} (h : MappedTo img s₀ s vaddr paddr flags k)
    (hFit : (k + m) * 4096 < 2 ^ 64) (hStart : pageAlignDown vaddr = vaddr)
    (hMap : Vmm.mapPages img vaddr paddr flags ((List.range' k m).map pageOffset) s = (ret, s')) :
    (ret = 0 ∧ MappedTo img s₀ s' vaddr paddr flags (k + m)) ∨ (ret = -1 ∧ Added img s₀ s' []) := by
  induction m generalizing s k with
  | zero =>
    obtain ⟨rfl, rfl⟩ := Prod.mk.inj hMap
    exact Or.inl ⟨rfl, h⟩
  | succ m ih =>
    rw [List.range'_succ, List.map_cons, Vmm.mapPages] at hMap
    cases hPage : s.vmmMapPage img (vaddr + pageOffset k) (paddr + pageOffset k) flags with
    | mk ret₁ s₁ =>
      rw [hPage] at hMap
      dsimp only at hMap
      obtain ⟨hInv, ⟨rfl, hNone, hSets⟩ | ⟨rfl, hQuiet⟩⟩ := h.added.inv.vmmMapPage hPage
      · rw [if_neg (by decide)] at hMap
        have hCount : k + 1 + m = k + (m + 1) := Nat.add_right_comm k 1 m
        have hRest := ih (h.map hInv hNone hSets) (hCount ▸ hFit) hMap
        rwa [hCount] at hRest
      · have hHere : (k + 1) * 4096 < 2 ^ 64 := Nat.lt_of_le_of_lt (Nat.mul_le_mul_right _ (by omega)) hFit
        rw [if_pos (by decide), Vmm.vmmUnmapRange, hStart, rollback_offsets hHere] at hMap
        obtain ⟨rfl, rfl⟩ := Prod.mk.inj hMap
        exact Or.inr ⟨rfl, (h.added.quiet hInv hQuiet).unmapPages⟩

end Loop

theorem Inv.mapRange {vaddr paddr size : UInt64} {flags : UInt32} {ret : Int} (h : Inv img s)
    (hMap : s.vmmMapRange img vaddr paddr size flags = (ret, s')) :
    (ret = 0 ∧ ∃ n, (pageAlign size).toNat = n * 4096 ∧
        MappedTo img s s' (pageAlignDown vaddr) (pageAlignDown paddr) flags n) ∨
      (ret = -1 ∧ ∀ u, s'.translate img.kernelPgd u = s.translate img.kernelPgd u) := by
  obtain ⟨n, hFit, hSize⟩ := pageAlign_multiple size
  rw [Vmm.vmmMapRange, pageAddrs_zero hSize, List.range_eq_range'] at hMap
  have hLoop := (MappedTo.start h (pageAlignDown vaddr) (pageAlignDown paddr) flags).loop
    (by rwa [Nat.zero_add]) (pageAlignDown_idem vaddr) hMap
  rw [Nat.zero_add] at hLoop
  rcases hLoop with ⟨hRet, hMapped⟩ | ⟨hRet, hAdded⟩
  · exact Or.inl ⟨hRet, n, hSize, hMapped⟩
  · exact Or.inr ⟨hRet, fun u => hAdded.others u fun _ ha => absurd ha List.not_mem_nil⟩

/-! ### A range that is not mapped -/

/-- In every state, whatever stops the call, no address is translated in another way. -/
theorem failed_map_range_keeps (hs : RangeReachable img s) {pages : List UInt64}
    (hFresh : Fresh img s.allocated pages) {vaddr paddr size : UInt64} {flags : UInt32}
    (hFail : ((s.given pages).vmmMapRange img vaddr paddr size flags).1 < 0) (u : UInt64) :
    ((s.given pages).vmmMapRange img vaddr paddr size flags).2.armTranslate img.kernelPgd u =
      s.armTranslate img.kernelPgd u := by
  have hInv := hs.reachable.inv.given hFresh
  rcases hInv.mapRange (Prod.eta _).symm with ⟨hRet, -⟩ | ⟨-, hSame⟩
  · rw [hRet] at hFail
    exact absurd hFail (by decide)
  · exact armTranslate_congr (hSame u)

theorem failed_map_range_keeps_first :
    (((booted sampleImage fun _ _ => 0).given []).vmmMapRange sampleImage 0x7FFFFFF000 0x9000 0x2000 vmWrite).1 < 0 ∧
      (((booted sampleImage fun _ _ => 0).given []).vmmMapRange sampleImage 0x7FFFFFF000 0x9000 0x2000
          vmWrite).2.armTranslate sampleImage.kernelPgd 0x7FFFFFF000 =
        (booted sampleImage fun _ _ => 0).armTranslate sampleImage.kernelPgd 0x7FFFFFF000 :=
  have hFail : (((booted sampleImage fun _ _ => 0).given []).vmmMapRange sampleImage 0x7FFFFFF000 0x9000 0x2000
      vmWrite).1 < 0 := by decide +kernel
  ⟨hFail, failed_map_range_keeps ⟨fun _ _ => 0, Or.inr (RangeRun.refl _)⟩ (by decide +kernel) hFail 0x7FFFFFF000⟩

/-! ### A range that is mapped -/

def TranslatesTo (img : Image) (s : Vmm) (a : UInt64) (p : Nat) (flags : UInt32) : Prop :=
  ∃ d, s.armTranslate img.kernelPgd a = some (p, d) ∧ Grants d flags

structure RangeMapped (img : Image) (s s' : Vmm) (vaddr paddr size : UInt64) (flags : UInt32) : Prop where
  bytes : ∀ a : UInt64, vaddr.toNat ≤ a.toNat → a.toNat < vaddr.toNat + size.toNat →
    TranslatesTo img s' a (paddr.toNat + (a.toNat - vaddr.toNat)) flags
  others : ∀ u : UInt64, u.toNat < 2 ^ 48 →
    (∀ a : UInt64, vaddr.toNat ≤ a.toNat → a.toNat < vaddr.toNat + size.toNat → ¬ SamePage u a) →
    s'.armTranslate img.kernelPgd u = s.armTranslate img.kernelPgd u

/-- The physical addresses have 48 bits, and what lies past the rounded size, counted from the first page, was mapped
in this way before. -/
structure RangeFits (img : Image) (s : Vmm) (vaddr paddr size : UInt64) (flags : UInt32) : Prop where
  physical : paddr.toNat + size.toNat ≤ 2 ^ 48
  tail : ∀ a : UInt64, (pageAlignDown vaddr).toNat + (pageAlign size).toNat ≤ a.toNat →
    a.toNat < vaddr.toNat + size.toNat → TranslatesTo img s a (paddr.toNat + (a.toNat - vaddr.toNat)) flags

theorem armTranslate_lt {table u d : UInt64} {p : Nat} (h : s.armTranslate table u = some (p, d)) : p < 2 ^ 48 := by
  rw [armTranslate_eq] at h
  obtain ⟨⟨e, k⟩, hEntry, hOutput⟩ := Option.bind_eq_some_iff.mp h
  obtain ⟨⟨e', k'⟩, -, hArm⟩ := Option.bind_eq_some_iff.mp hEntry
  have hLevel : k ≤ 2 := by
    cases k' with
    | zero =>
      rw [armEntry] at hArm
      split_ifs at hArm
      exact (Prod.mk.inj (Option.some.inj hArm)).2 ▸ Nat.zero_le 2
    | succ above =>
      rw [armEntry] at hArm
      split_ifs at hArm with hAbove
      rw [← (Prod.mk.inj (Option.some.inj hArm)).2]
      exact hAbove
  dsimp only at hOutput
  rw [armOutput] at hOutput
  split_ifs at hOutput
  rw [← (Prod.mk.inj (Option.some.inj hOutput)).1]
  obtain rfl | rfl | rfl : k = 0 ∨ k = 1 ∨ k = 2 := by omega
  all_goals omega

theorem toNat_rangeAddr {vaddr : UInt64} {i : Nat} (h : (pageAlignDown vaddr).toNat + i * 4096 < 2 ^ 48) :
    (pageAlignDown vaddr + pageOffset i).toNat = vaddr.toNat / 4096 * 4096 + i * 4096 := by
  rw [toNat_pageAlignDown] at h
  have hLong : (2 : Nat) ^ 48 ≤ 2 ^ 64 := by decide
  have hOffset : i * 4096 < 2 ^ 64 := Nat.lt_of_lt_of_le (Nat.lt_of_le_of_lt (Nat.le_add_left _ _) h) hLong
  rw [UInt64.toNat_add, toNat_pageOffset hOffset, toNat_pageAlignDown]
  exact Nat.mod_eq_of_lt (Nat.lt_of_lt_of_le h hLong)

section Range

variable {vaddr paddr size : UInt64} {flags : UInt32} {n : Nat}

theorem MappedTo.other (h : MappedTo img s s' (pageAlignDown vaddr) (pageAlignDown paddr) flags n)
    (hEnd : (pageAlignDown vaddr).toNat + n * 4096 ≤ 2 ^ 48 + 4095) {u : UInt64} (hu : u.toNat < 2 ^ 48)
    (hOther : ∀ i < n, u.toNat / 4096 ≠ vaddr.toNat / 4096 + i) :
    s'.armTranslate img.kernelPgd u = s.armTranslate img.kernelPgd u := by
  refine armTranslate_congr (h.added.others u fun a ha hHere => ?_)
  simp only [rangeAddrs, List.map_map, List.mem_map, List.mem_range, Function.comp_apply] at ha
  obtain ⟨i, hi, rfl⟩ := ha
  have hDown := toNat_pageAlignDown vaddr
  have hAddr := @toNat_rangeAddr vaddr i (by omega)
  have hSame := samePage_of_indices hu (by omega) hHere.1 hHere.2
  unfold SamePage at hSame
  exact hOther i hi (by omega)

theorem MappedTo.page (h : MappedTo img s s' (pageAlignDown vaddr) (pageAlignDown paddr) flags n)
    (hSame : vaddr.toNat % 4096 = paddr.toNat % 4096) {a : UInt64} {i : Nat} (hi : i < n)
    (hPage : a.toNat / 4096 = vaddr.toNat / 4096 + i) (hLow : vaddr.toNat ≤ a.toNat)
    (ha : a.toNat < 2 ^ 48) (hp : paddr.toNat + (a.toNat - vaddr.toNat) < 2 ^ 48) :
    TranslatesTo img s' a (paddr.toNat + (a.toNat - vaddr.toNat)) flags := by
  have hDown := toNat_pageAlignDown vaddr
  have hAddr := @toNat_rangeAddr vaddr i (by omega)
  have hHere : SamePage a (pageAlignDown vaddr + pageOffset i) := by
    unfold SamePage
    omega
  have hWalk := armTranslate_page ((translate_of_samePage hHere img.kernelPgd).trans (h.entries i hi))
  refine ⟨physToPte (pageAlignDown paddr + pageOffset i) (vmFlagsToPte flags), ?_, physToPte_grants _ flags⟩
  rw [hWalk]
  have hPhys := @toNat_rangeAddr paddr i (by rw [toNat_pageAlignDown]; omega)
  have hMask : ∀ x : UInt64, (x &&& pteAddrMask).toNat = x.toNat % 2 ^ 48 / 2 ^ 12 * 2 ^ 12 := toNat_pteToPhys
  rw [hMask, hPhys]
  congr 2
  omega

end Range

/-- In every state, a call that returns zero has mapped all bytes that were asked for if and only if the rounded size
reaches from the first page to the last byte, or the rest was mapped like this before. -/
theorem map_range_complete_iff (hs : RangeReachable img s) {pages : List UInt64}
    (hFresh : Fresh img s.allocated pages) {vaddr paddr size : UInt64} {flags : UInt32}
    (hSame : vaddr.toNat % 4096 = paddr.toNat % 4096) (hSize : 0 < size.toNat)
    (hEnd : vaddr.toNat + size.toNat ≤ 2 ^ 48)
    (hRet : ((s.given pages).vmmMapRange img vaddr paddr size flags).1 = 0) :
    RangeMapped img s ((s.given pages).vmmMapRange img vaddr paddr size flags).2 vaddr paddr size flags ↔
      RangeFits img s vaddr paddr size flags := by
  have hInv := hs.reachable.inv.given hFresh
  rcases hInv.mapRange (Prod.eta _).symm with ⟨-, n, hCount, hMapped⟩ | ⟨hFail, -⟩
  rotate_left
  · rw [hFail] at hRet
    cases hRet
  generalize ((s.given pages).vmmMapRange img vaddr paddr size flags).2 = s' at hMapped ⊢
  have hDown := toNat_pageAlignDown vaddr
  rw [toNat_pageAlign (by omega)] at hCount
  have hTail : ∀ a : UInt64, (pageAlignDown vaddr).toNat + (pageAlign size).toNat ≤ a.toNat →
      a.toNat < vaddr.toNat + size.toNat → s'.armTranslate img.kernelPgd a = s.armTranslate img.kernelPgd a := by
    intro a hLow hHigh
    rw [toNat_pageAlign (by omega), hDown] at hLow
    refine hMapped.other (by omega) (by omega) fun i hi => ?_
    omega
  constructor
  · intro hAll
    refine ⟨?_, fun a hLow hHigh => ?_⟩
    · have hLast : (vaddr + size - 1).toNat = vaddr.toNat + size.toNat - 1 := by
        rw [UInt64.toNat_sub, UInt64.toNat_add, show (1 : UInt64).toNat = 1 from rfl]
        omega
      obtain ⟨d, hWalk, -⟩ := hAll.bytes (vaddr + size - 1) (by omega) (by omega)
      have hLt := armTranslate_lt hWalk
      omega
    · have hFirst : vaddr.toNat ≤ a.toNat := by
        rw [toNat_pageAlign (by omega), hDown] at hLow
        omega
      obtain ⟨d, hWalk, hGrants⟩ := hAll.bytes a hFirst hHigh
      exact ⟨d, (hTail a hLow hHigh).symm.trans hWalk, hGrants⟩
  · intro hFits
    have hPhysical := hFits.physical
    refine ⟨fun a hLow hHigh => ?_, fun u hu hOther => ?_⟩
    · by_cases hPage : (pageAlignDown vaddr).toNat + (pageAlign size).toNat ≤ a.toNat
      · obtain ⟨d, hWalk, hGrants⟩ := hFits.tail a hPage hHigh
        exact ⟨d, (hTail a hPage hHigh).trans hWalk, hGrants⟩
      · rw [toNat_pageAlign (by omega), hDown] at hPage
        refine @MappedTo.page img (s.given pages) s' vaddr paddr flags n hMapped hSame a
          (a.toNat / 4096 - vaddr.toNat / 4096) ?_ ?_ hLow ?_ ?_
        all_goals omega
    · refine hMapped.other (by omega) hu fun i hi hPage => ?_
      -- the first byte of the range that is in the page
      rcases Nat.eq_zero_or_pos i with rfl | hPos
      · exact hOther vaddr (Nat.le_refl _) (by omega) (by unfold SamePage; omega)
      · have hAddr := @toNat_rangeAddr vaddr i (by omega)
        exact hOther (pageAlignDown vaddr + pageOffset i) (by omega) (by omega) (by unfold SamePage; omega)

theorem map_range_complete_one :
    (((boot sampleImage fun _ _ => 0).given [0x6000]).vmmMapRange sampleImage 0x8000000800 0x9800 0x800 vmWrite).1 = 0 ∧
      (RangeMapped sampleImage (boot sampleImage fun _ _ => 0)
          (((boot sampleImage fun _ _ => 0).given [0x6000]).vmmMapRange sampleImage 0x8000000800 0x9800 0x800 vmWrite).2
          0x8000000800 0x9800 0x800 vmWrite ↔
        RangeFits sampleImage (boot sampleImage fun _ _ => 0) 0x8000000800 0x9800 0x800 vmWrite) :=
  have hRet : (((boot sampleImage fun _ _ => 0).given [0x6000]).vmmMapRange sampleImage 0x8000000800 0x9800 0x800
      vmWrite).1 = 0 := by decide +kernel
  ⟨hRet, map_range_complete_iff ⟨fun _ _ => 0, Or.inl (RangeRun.refl _)⟩ (by decide) (by decide) (by decide)
    (by decide) hRet⟩

theorem last_page_not_mapped :
    (((boot sampleImage fun _ _ => 0).given [0x6000]).vmmMapRange sampleImage 0x8000000800 0x9800 0x1000 vmWrite).1 = 0 ∧
      ¬ RangeMapped sampleImage (boot sampleImage fun _ _ => 0)
        (((boot sampleImage fun _ _ => 0).given [0x6000]).vmmMapRange sampleImage 0x8000000800 0x9800 0x1000 vmWrite).2
        0x8000000800 0x9800 0x1000 vmWrite := by
  refine ⟨by decide +kernel, fun hAll => ?_⟩
  obtain ⟨d, hWalk, -⟩ := hAll.bytes 0x8000001000 (by decide) (by decide)
  have hFault : (((boot sampleImage fun _ _ => 0).given [0x6000]).vmmMapRange sampleImage 0x8000000800 0x9800 0x1000
      vmWrite).2.armTranslate sampleImage.kernelPgd 0x8000001000 = none := by decide +kernel
  rw [hFault] at hWalk
  cases hWalk

end UnixOS.Paging
