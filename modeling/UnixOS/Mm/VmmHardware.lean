import UnixOS.Mm.VmmRange

/-! # The walk of the hardware

The translation of a 48-bit address by the ARM64 architecture, with pages of 4 KiB. `vmm_virt_to_phys` agrees with it
on what the kernel maps page by page, and finds nothing in the blocks that `vmm_init` makes.
-/

namespace UnixOS.Paging

open TableForest BitFields

variable {img : Image} {s s' : Vmm}

/-! ### The architecture -/

def armIndex (vaddr : UInt64) (above : Nat) : Nat := vaddr.toNat / 2 ^ (12 + 9 * above) % 512

/-- The last descriptor of a walk from a table with `above` levels below it, and its own number of levels below. There
are no blocks at level 0, and at the last level only pages. -/
def Vmm.armWalk (s : Vmm) (vaddr : UInt64) : Nat → UInt64 → Option (UInt64 × Nat)
  | 0, table =>
    let d := s.tables table (armIndex vaddr 0)
    if d &&& 3 = 3 then some (d, 0) else none
  | above + 1, table =>
    let d := s.tables table (armIndex vaddr (above + 1))
    if d &&& 3 = 3 then s.armWalk vaddr above (d &&& 0x0000FFFFFFFFF000)
    else if d &&& 3 = 1 ∧ above < 2 then some (d, above + 1)
    else none

def armOutput (vaddr : UInt64) (d : UInt64) (above : Nat) : Option (Nat × UInt64) :=
  if d &&& 0x400 = 0 then none
  else
    some (d.toNat % 2 ^ 48 / 2 ^ (12 + 9 * above) * 2 ^ (12 + 9 * above) + vaddr.toNat % 2 ^ (12 + 9 * above), d)

/-- The physical address and the descriptor, or `none` for a fault. -/
def Vmm.armTranslate (s : Vmm) (ttbr vaddr : UInt64) : Option (Nat × UInt64) :=
  (s.armWalk vaddr 3 ttbr).bind fun (d, above) => armOutput vaddr d above

/-! ### Its walk and that of the code -/

theorem armIndex_eq (vaddr : UInt64) {level above : Nat} (h : level + above = 3) :
    armIndex vaddr above = pteIndex vaddr level := by
  rw [pteIndex_eq vaddr (by omega), armIndex]
  congr 3
  omega

theorem pteIsTable_iff (pte : UInt64) : pteIsTable pte = true ↔ pte &&& 3 = 3 := by
  unfold pteIsTable
  rw [beq_iff_eq]
  rfl

theorem pteIsValid_iff (pte : UInt64) : pteIsValid pte = true ↔ pte &&& 3 = 3 ∨ pte &&& 3 = 1 := by
  have hOne : pte &&& 1 = pte &&& 3 &&& 1 := by
    rw [UInt64.and_assoc]
    rfl
  have hLt : (pte &&& 3).toNat < 4 := by
    rw [UInt64.toNat_and]
    exact Nat.lt_of_le_of_lt Nat.and_le_right (by decide)
  have hFour : pte &&& 3 = 0 ∨ pte &&& 3 = 1 ∨ pte &&& 3 = 2 ∨ pte &&& 3 = 3 := by
    simp only [← UInt64.toNat_inj]
    show _ = 0 ∨ _ = 1 ∨ _ = 2 ∨ _ = 3
    omega
  unfold pteIsValid
  rw [show pteValid = 1 from rfl, hOne]
  rcases hFour with h | h | h | h
  all_goals
    rw [h]
    decide

def armEntry : UInt64 × Nat → Option (UInt64 × Nat)
  | (pte, 0) => if pte &&& 3 = 3 then some (pte, 0) else none
  | (pte, above + 1) => if above < 2 then some (pte, above + 1) else none

section Walk

variable (s) (vaddr table : UInt64)

theorem armWalk_zero : s.armWalk vaddr 0 table =
    (resolve tableOf pteIsValid s.tables table [] (pteIndex vaddr 3)).bind armEntry := by
  rw [Vmm.armWalk, resolve, armIndex_eq vaddr (show 3 + 0 = 3 from rfl)]
  cases hValid : pteIsValid (s.tables table (pteIndex vaddr 3)) with
  | true => rfl
  | false =>
    refine if_neg fun hTable => ?_
    rw [(pteIsValid_iff _).mpr (Or.inl hTable)] at hValid
    cases hValid

theorem armWalk_succ {above : Nat} {level : Nat} (hLevel : level + (above + 1) = 3) {rest : List Nat}
    (hRest : rest.length = above)
    (hNext : ∀ c, s.armWalk vaddr above c = (resolve tableOf pteIsValid s.tables c rest (pteIndex vaddr 3)).bind armEntry) :
    s.armWalk vaddr (above + 1) table =
      (resolve tableOf pteIsValid s.tables table (pteIndex vaddr level :: rest) (pteIndex vaddr 3)).bind armEntry := by
  rw [Vmm.armWalk, resolve, armIndex_eq vaddr hLevel, tableOf]
  by_cases hTable : s.tables table (pteIndex vaddr level) &&& 3 = 3
  · rw [if_pos hTable, if_pos ((pteIsTable_iff _).mpr hTable)]
    exact hNext _
  · rw [if_neg hTable, if_neg (mt (pteIsTable_iff _).mp hTable), hRest]
    dsimp only
    by_cases hBlock : s.tables table (pteIndex vaddr level) &&& 3 = 1
    · rw [if_pos ((pteIsValid_iff _).mpr (Or.inr hBlock))]
      simp only [hBlock, true_and, Option.bind_some, armEntry]
    · rw [if_neg (mt (pteIsValid_iff _).mp (not_or.mpr ⟨hTable, hBlock⟩))]
      simp only [hBlock, false_and, if_false, Option.bind_none]

theorem armWalk_eq : s.armWalk vaddr 3 table = (s.translate table vaddr).bind armEntry := by
  have hLast := armWalk_zero s vaddr
  have hOne := fun c => @armWalk_succ s vaddr c 0 2 rfl [] rfl hLast
  have hTwo := fun c => @armWalk_succ s vaddr c 1 1 rfl _ rfl hOne
  exact @armWalk_succ s vaddr table 2 0 rfl _ rfl hTwo

theorem armTranslate_eq : s.armTranslate table vaddr =
    ((s.translate table vaddr).bind armEntry).bind fun (d, above) => armOutput vaddr d above := by
  rw [Vmm.armTranslate, armWalk_eq]

end Walk

theorem armTranslate_congr {table u : UInt64} (h : s'.translate table u = s.translate table u) :
    s'.armTranslate table u = s.armTranslate table u := by
  rw [armTranslate_eq, armTranslate_eq, h]

/-! ### What the kernel's walks end at -/

theorem Inv.run_leaf (h : Inv img s) (c : Call) (u : UInt64) :
    (c.run img s).translate img.kernelPgd u = s.translate img.kernelPgd u ∨
      (c.run img s).translate img.kernelPgd u = none ∨
      ∃ paddr flags, (c.run img s).translate img.kernelPgd u = some (physToPte paddr (vmFlagsToPte flags), 0) := by
  have hOwn := own_path_kernel u
  have hSets : ∀ {s' : Vmm} {q : List Nat} {i : Nat} {pte : UInt64}, Sets img s s' none q i pte →
      s'.translate img.kernelPgd u = s.translate img.kernelPgd u ∨
        s'.translate img.kernelPgd u = if pteIsValid pte then some (pte, 0) else none := by
    intro s' q i pte hSets
    by_cases hHere : path u = q ∧ pteIndex u 3 = i
    · obtain ⟨rfl, rfl⟩ := hHere
      exact Or.inr (hSets.self img.kernelPgd rfl)
    · exact Or.inl (hSets.others none _ _ _ rfl hOwn rfl fun hSame => hHere hSame.2)
  cases c with
  | mapPage vaddr paddr flags =>
    rcases (h.vmmMapPage (Prod.eta (s.vmmMapPage img vaddr paddr flags)).symm).2 with ⟨-, -, hMap⟩ | ⟨-, hQuiet⟩
    · rcases hSets hMap with hSame | hNew
      · exact Or.inl hSame
      · rw [(physToPte_vmFlagsToPte paddr flags).1, if_pos rfl] at hNew
        exact Or.inr (Or.inr ⟨paddr, flags, hNew⟩)
    · exact Or.inl (hQuiet.resolve none _ _ _ rfl hOwn rfl)
  | unmapPage vaddr =>
    rcases (h.vmmUnmapPage (Prod.eta (s.vmmUnmapPage img vaddr)).symm).2 with ⟨-, -, hUnmap⟩ | ⟨-, hSame⟩
    · exact (hSets hUnmap).imp id Or.inl
    · exact Or.inl (congrArg (fun x => Vmm.translate x img.kernelPgd u) hSame)
  | createAddressSpace => exact Or.inl ((h.vmmCreateAddressSpace (Prod.eta _).symm).2.1.apart.kernel u).1
  | mapUserPage mm vaddr paddr flags => exact Or.inl ((h.mapUserPage_only mm vaddr paddr flags).1.apart.kernel u).1
  | mapUserRange mm vaddr size flags => exact Or.inl ((h.mapUserPages (Prod.eta _).symm).2.apart.kernel u).1

def initBlock (i : Nat) : Option UInt64 :=
  if i = 0 then some lowDevices else if i = 1 then some kernelBlock else if i = 256 then some highDevices else none

theorem booted_tables (img : Image) (mem : UInt64 → Nat → UInt64) : ∃ l1, l1 &&& pteAddrMask = l1 ∧
    (∀ i, (booted img mem).tables img.kernelPgd i = if i = 0 then physToPte l1 (pteValid ||| pteTable) else 0) ∧
      ∀ i, (booted img mem).tables l1 i = (initBlock i).getD 0 := by
  obtain ⟨l1, s₁, hNew, hEq⟩ := booted_eq img mem
  have hNe : img.kernelPgd ≠ l1 := fun h => hNew.unused (h ▸ List.mem_cons_self)
  have hPgd : ∀ i, (s₁.link img.kernelPgd 0 l1).tables img.kernelPgd i =
      if i = 0 then physToPte l1 (pteValid ||| pteTable) else 0 := by
    intro i
    rw [hNew.link_tables, install]
    by_cases hZero : i = 0
    · rw [if_pos hZero, hZero, setEntry_self]
    · rw [if_neg hZero, setEntry_of_ne _ (by simp [hZero]), Function.update_of_ne hNe]
      show Function.update mem img.kernelPgd _ img.kernelPgd i = 0
      rw [Function.update_self]
  have hL1 : ∀ i, (s₁.link img.kernelPgd 0 l1).tables l1 i = 0 := by
    intro i
    rw [hNew.link_tables, install_new hNe.symm]
  refine ⟨l1, hNew.aligned, fun i => ?_, fun i => ?_⟩
  · rw [hEq, ← hPgd]
    show setEntry (setEntry (setEntry (s₁.link img.kernelPgd 0 l1).tables l1 _ _) l1 _ _) l1 _ _ img.kernelPgd i = _
    rw [setEntry_of_ne _ fun h => hNe h.1, setEntry_of_ne _ fun h => hNe h.1, setEntry_of_ne _ fun h => hNe h.1]
  · rw [hEq]
    show setEntry (setEntry (setEntry (s₁.link img.kernelPgd 0 l1).tables l1 0 lowDevices) l1 1 kernelBlock) l1 256
      highDevices l1 i = _
    unfold initBlock
    by_cases h₂₅₆ : i = 256
    · rw [h₂₅₆, setEntry_self]
      rfl
    rw [setEntry_of_ne _ fun h => h₂₅₆ h.2]
    by_cases h₁ : i = 1
    · rw [h₁, setEntry_self]
      rfl
    rw [setEntry_of_ne _ fun h => h₁ h.2]
    by_cases h₀ : i = 0
    · rw [h₀, setEntry_self]
      rfl
    rw [setEntry_of_ne _ fun h => h₀ h.2, if_neg h₀, if_neg h₁, if_neg h₂₅₆]
    exact hL1 i

theorem booted_translate_eq (img : Image) (mem : UInt64 → Nat → UInt64) (u : UInt64) :
    (booted img mem).translate img.kernelPgd u =
      if pteIndex u 0 = 0 then (initBlock (pteIndex u 1)).map fun e => (e, 2) else none := by
  obtain ⟨l1, hAligned, hPgd, hL1⟩ := booted_tables img mem
  rw [translate_def, path, resolve, hPgd]
  by_cases hZero : pteIndex u 0 = 0
  · rw [if_pos hZero, if_pos hZero, tableOf_physToPte hAligned]
    show resolve tableOf pteIsValid (booted img mem).tables l1 [pteIndex u 1, pteIndex u 2] (pteIndex u 3) = _
    rw [resolve, hL1]
    have hNone : ∀ i, i ≠ 0 → i ≠ 1 → i ≠ 256 → initBlock i = none := by
      intro i h₀ h₁ h₂₅₆
      rw [initBlock, if_neg h₀, if_neg h₁, if_neg h₂₅₆]
    by_cases hBlock : pteIndex u 1 = 0 ∨ pteIndex u 1 = 1 ∨ pteIndex u 1 = 256
    · rcases hBlock with h | h | h
      all_goals
        rw [h]
        rfl
    · rw [not_or, not_or] at hBlock
      rw [hNone _ hBlock.1 hBlock.2.1 hBlock.2.2]
      rfl
  · rw [if_neg hZero, if_neg hZero]
    rfl

/-- The addresses that `vmm_init` maps with blocks. -/
def BlockArea (vaddr : UInt64) : Prop :=
  vaddr.toNat < 0x80000000 ∨ 0x4000000000 ≤ vaddr.toNat ∧ vaddr.toNat < 0x4040000000

instance (vaddr : UInt64) : Decidable (BlockArea vaddr) := inferInstanceAs (Decidable (_ ∨ _))

theorem Run.leaf {mem : UInt64 → Nat → UInt64} (h : Run img (booted img mem) s) (u : UInt64) :
    s.translate img.kernelPgd u = (booted img mem).translate img.kernelPgd u ∨
      s.translate img.kernelPgd u = none ∨
      ∃ paddr flags, s.translate img.kernelPgd u = some (physToPte paddr (vmFlagsToPte flags), 0) := by
  induction h with
  | refl => exact Or.inl rfl
  | call c pages hBefore hFresh ih =>
    have hInv := (hBefore.inv (inv_booted img mem)).given hFresh
    rcases hInv.run_leaf c u with hSame | hNew
    · rw [hSame]
      exact ih
    · exact Or.inr hNew

theorem initBlock_isSome_iff {u : UInt64} (hu : u.toNat < 2 ^ 48) :
    BlockArea u ↔ pteIndex u 0 = 0 ∧ (initBlock (pteIndex u 1)).isSome = true := by
  rw [pteIndex_eq u (by decide), pteIndex_eq u (by decide)]
  have hSome : ∀ i, (initBlock i).isSome = true ↔ i = 0 ∨ i = 1 ∨ i = 256 := by
    intro i
    unfold initBlock
    split_ifs with h₀ h₁ h₂₅₆ <;> simp [*]
  rw [hSome, BlockArea]
  omega

theorem armOutput_initBlock {u e : UInt64} (hu : u.toNat < 2 ^ 48) (hZero : pteIndex u 0 = 0)
    (hBlock : initBlock (pteIndex u 1) = some e) : armOutput u e 2 = some (u.toNat, e) := by
  rw [pteIndex_eq u (by decide)] at hZero hBlock
  have hBits : e &&& 0x400 ≠ 0 ∧ e.toNat % 2 ^ 48 / 2 ^ 30 = u.toNat / 2 ^ (39 - 9 * 1) % 512 := by
    unfold initBlock at hBlock
    split_ifs at hBlock with h₀ h₁ h₂₅₆
    · rw [← Option.some.inj hBlock, h₀]
      exact ⟨by decide, by decide⟩
    · rw [← Option.some.inj hBlock, h₁]
      exact ⟨by decide, by decide⟩
    · rw [← Option.some.inj hBlock, h₂₅₆]
      exact ⟨by decide, by decide⟩
  obtain ⟨hAccess, hAddr⟩ := hBits
  rw [armOutput, if_neg hAccess, show 12 + 9 * 2 = 30 from rfl, hAddr]
  congr 2
  omega

theorem toNat_pteToPhys (pte : UInt64) : (pteToPhys pte).toNat = pte.toNat % 2 ^ 48 / 2 ^ 12 * 2 ^ 12 := by
  rw [pteToPhys, UInt64.toNat_and, show pteAddrMask.toNat = (2 ^ 36 - 1) * 2 ^ 12 by decide, and_field]

theorem toNat_pteToPhys_or (pte u : UInt64) :
    (pteToPhys pte ||| (u &&& (pageSize - 1))).toNat = (pteToPhys pte).toNat + u.toNat % 4096 := by
  have hLow : (u &&& (pageSize - 1)).toNat = u.toNat % 2 ^ 12 := by
    rw [UInt64.toNat_and, show (pageSize - 1).toNat = 2 ^ 12 - 1 by decide, Nat.and_two_pow_sub_one_eq_mod]
  rw [UInt64.toNat_or, hLow, toNat_pteToPhys, Nat.mul_comm _ (2 ^ 12),
    ← Nat.two_pow_add_eq_or_of_lt (Nat.mod_lt _ (by decide))]

theorem armOutput_page (u paddr : UInt64) (flags : UInt32) :
    armOutput u (physToPte paddr (vmFlagsToPte flags)) 0 =
      some ((paddr &&& pteAddrMask).toNat + u.toNat % 4096, physToPte paddr (vmFlagsToPte flags)) := by
  have hFlags : vmFlagsToPte flags &&& 0x400 = 0x400 := by
    unfold vmFlagsToPte
    dsimp only
    split_ifs <;> decide
  have hAccess : physToPte paddr (vmFlagsToPte flags) &&& 0x400 ≠ 0 := by
    rw [physToPte, masked_or_and, hFlags, show pteAddrMask &&& 0x400 = 0 by decide, UInt64.and_zero]
    decide
  rw [armOutput, if_neg hAccess, ← (physToPte_vmFlagsToPte paddr flags).2.1, toNat_pteToPhys]
  rfl

theorem armEntry_page (paddr : UInt64) (flags : UInt32) :
    armEntry (physToPte paddr (vmFlagsToPte flags), 0) = some (physToPte paddr (vmFlagsToPte flags), 0) := by
  refine if_pos ((pteIsTable_iff _).mp ?_)
  have hFlags : vmFlagsToPte flags &&& 3 = 3 := by
    unfold vmFlagsToPte
    dsimp only
    split_ifs <;> decide
  rw [pteIsTable_iff, physToPte, masked_or_and, hFlags, show pteAddrMask &&& 3 = 0 by decide, UInt64.and_zero]
  decide

theorem armTranslate_page {table u paddr : UInt64} {flags : UInt32}
    (h : s.translate table u = some (physToPte paddr (vmFlagsToPte flags), 0)) :
    s.armTranslate table u =
      some ((paddr &&& pteAddrMask).toNat + u.toNat % 4096, physToPte paddr (vmFlagsToPte flags)) := by
  rw [armTranslate_eq, h, Option.bind_some, armEntry_page, Option.bind_some]
  exact armOutput_page u paddr flags

theorem Run.armTranslate_block {mem : UInt64 → Nat → UInt64} (h : Run img (booted img mem) s) {u : UInt64}
    (hu : u.toNat < 2 ^ 48) (hBlock : BlockArea u) :
    (∃ e, s.armTranslate img.kernelPgd u = some (u.toNat, e)) ∧ s.vmmVirtToPhys img u = 0 := by
  obtain ⟨hZero, hSome⟩ := (initBlock_isSome_iff hu).mp hBlock
  obtain ⟨e, he⟩ := Option.isSome_iff_exists.mp hSome
  have hBooted : (booted img mem).translate img.kernelPgd u = some (e, 2) := by
    rw [booted_translate_eq, if_pos hZero, he]
    rfl
  have hNow := h.block (inv_booted img mem) hBooted
  refine ⟨⟨e, ?_⟩, ?_⟩
  · rw [armTranslate_eq, hNow, Option.bind_some, armEntry, if_pos (by decide), Option.bind_some]
    exact armOutput_initBlock hu hZero he
  · rw [vmmVirtToPhys_eq, hNow]
    rfl

/-- What the code is to find for an address. -/
def VirtToPhysAgrees (img : Image) (s : Vmm) (vaddr : UInt64) : Prop :=
  (s.vmmVirtToPhys img vaddr).toNat = ((s.armTranslate img.kernelPgd vaddr).map Prod.fst).getD 0

theorem Run.agrees_of_not_block {mem : UInt64 → Nat → UInt64} (h : Run img (booted img mem) s) {u : UInt64}
    (hu : u.toNat < 2 ^ 48) (hBlock : ¬ BlockArea u) : VirtToPhysAgrees img s u := by
  have hNone : (booted img mem).translate img.kernelPgd u = none := by
    rw [booted_translate_eq]
    split_ifs with hZero
    · rw [Option.map_eq_none_iff]
      refine Option.not_isSome_iff_eq_none.mp fun hSome => ?_
      exact hBlock ((initBlock_isSome_iff hu).mpr ⟨hZero, hSome⟩)
    · rfl
  have hFault : s.translate img.kernelPgd u = none → VirtToPhysAgrees img s u := by
    intro hWalk
    rw [VirtToPhysAgrees, armTranslate_eq, vmmVirtToPhys_eq, hWalk]
    rfl
  rcases h.leaf u with hSame | hWalk | ⟨paddr, flags, hWalk⟩
  · exact hFault (hSame.trans hNone)
  · exact hFault hWalk
  · rw [VirtToPhysAgrees, armTranslate_page hWalk, vmmVirtToPhys_eq, hWalk,
      ← (physToPte_vmFlagsToPte paddr flags).2.1]
    exact toNat_pteToPhys_or _ u

/-- In every state after `vmm_init`, `vmm_virt_to_phys` is right about an address if and only if it is not mapped by a
block or it is the null address. -/
theorem virt_to_phys_agrees_iff {mem : UInt64 → Nat → UInt64} (h : RangeRun img (booted img mem) s) {vaddr : UInt64}
    (hv : vaddr.toNat < 2 ^ 48) : VirtToPhysAgrees img s vaddr ↔ ¬ BlockArea vaddr ∨ vaddr = 0 := by
  have hRun := h.run (inv_booted img mem)
  by_cases hBlock : BlockArea vaddr
  · obtain ⟨⟨e, hWalk⟩, hZero⟩ := hRun.armTranslate_block hv hBlock
    rw [VirtToPhysAgrees, hWalk, hZero, ← UInt64.toNat_inj]
    simp only [hBlock, not_true, false_or]
    exact eq_comm
  · exact iff_of_true (hRun.agrees_of_not_block hv hBlock) (Or.inl hBlock)

theorem virt_to_phys_agrees_page :
    let s := ((booted sampleImage fun _ _ => 0).given [0x6000, 0x7000]).vmmMapPage sampleImage 0x80000000 0x9000 vmWrite
    s.1 = 0 ∧ s.2.vmmVirtToPhys sampleImage 0x80000123 = 0x9123 ∧ VirtToPhysAgrees sampleImage s.2 0x80000123 := by
  intro s
  have hFresh : Fresh sampleImage (booted sampleImage fun _ _ => 0).allocated [0x6000, 0x7000] := by decide +kernel
  have hRun : RangeRun sampleImage (booted sampleImage fun _ _ => 0) s.2 :=
    .call (.page (.mapPage 0x80000000 0x9000 vmWrite)) [0x6000, 0x7000] (.refl _) hFresh
  refine ⟨by decide +kernel, by decide +kernel, (virt_to_phys_agrees_iff hRun (by decide)).mpr (Or.inl ?_)⟩
  decide +kernel

theorem kernel_address_not_found :
    ¬ VirtToPhysAgrees sampleImage (booted sampleImage fun _ _ => 0) 0x40000000 := by
  unfold VirtToPhysAgrees
  decide +kernel

end UnixOS.Paging
