import UnixOS.Mm.UserUpper

/-! # What `vmm_map_user_range` leaves

A call fails when the first page that it cannot map comes up, and keeps what it has done until then. Whether there is
such a page is a matter of counting: one page of the allocator for each page, and the tables that are missing.
-/

namespace UnixOS.Paging

open TableForest BitFields

variable {img : Image} {mm : Nat} {flags : UInt32}

def tablesFor : List UInt64 → Finset (List Nat)
  | [] => ∅
  | addr :: rest => tablePaths addr ∪ tablesFor rest

def Mappable (img : Image) (s : Vmm) (mm : Nat) (addrs : List UInt64) : Prop :=
  addrs = [] ∨ ∃ a, s.pgd mm = some a ∧ (∀ u ∈ addrs, u < userVmaEnd) ∧
    addrs.length + ((missing s a (tablesFor addrs)).card - earlyLeft img s) ≤ s.pages.length

theorem own_tablesFor {addrs : List UInt64} (hUser : ∀ u ∈ addrs, u < userVmaEnd) {q : List Nat}
    (hq : q ∈ tablesFor addrs) : own (some mm) q := by
  induction addrs with
  | nil => exact absurd hq (Finset.notMem_empty q)
  | cons addr rest ih =>
    obtain ⟨hFirst, hRest⟩ := List.forall_mem_cons.mp hUser
    rcases Finset.mem_union.mp hq with hHere | hLater
    · exact own_tablePaths hFirst hHere
    · exact ih hRest hLater

/-! ### One page -/

section Page

variable {s v : Vmm} {a addr paddr : UInt64} {ret : Int}

theorem Inv.mapUserPage_failed (h : Inv img s) (hUpper : Upper img s)
    (hMap : s.vmmMapUserPage img mm addr paddr flags = (ret, v)) (hFail : ret ≠ 0) :
    v.pgd = s.pgd ∧ ∀ a u, s.pgd mm = some a → v.translate a u = s.translate a u := by
  rcases (h.vmmMapUserPage hMap).2 with ⟨hRet, -⟩ | ⟨-, hQuiet⟩
  · exact absurd hRet hFail
  refine ⟨hQuiet.pgd, fun a u ha => ?_⟩
  by_cases hLow : pteIndex u 0 < vmmEntries / 2
  · refine hQuiet.resolve (some mm) a (path u) (pteIndex u 3) ha ⟨Nat.le_refl 3, fun i hi => ?_⟩ rfl
    rw [← Option.some.inj hi]
    exact hLow
  · have hSame := (hUpper.mapUserPage_shared h mm addr paddr flags).2 mm a u ha (Nat.not_lt.mp hLow)
    rwa [hMap] at hSame

theorem mappable_cons_iff {ps : List UInt64} {rest : List UInt64} (ha : s.pgd mm = some a) (hUser : addr < userVmaEnd)
    (hPages : s.pages = paddr :: ps) (hPgd : v.pgd = s.pgd)
    (hSpent : Spent img { s with pages := ps } v (missing s a (tablePaths addr)).card)
    (hFollow : ∀ q, own (some mm) q → (follow tableOf v.tables a q = none ↔
      follow tableOf s.tables a q = none ∧ q ∉ tablePaths addr)) :
    Mappable img s mm (addr :: rest) ↔ Mappable img v mm rest := by
  have hEarly : earlyLeft img v = earlyLeft img s - _ := hSpent.early
  have hLeft : v.pages.length + (_ - earlyLeft img s) = ps.length := hSpent.pages
  have hLength : s.pages.length = ps.length + 1 := by rw [hPages, List.length_cons]
  have hCard : (∀ u ∈ rest, u < userVmaEnd) → (missing s a (tablesFor (addr :: rest))).card =
      (missing s a (tablePaths addr)).card + (missing v a (tablesFor rest)).card := by
    intro hRest
    have hMissing : missing v a (tablesFor rest) = missing s a (tablesFor rest) \ tablePaths addr := by
      ext q
      simp only [missing, Finset.mem_filter, Finset.mem_sdiff]
      constructor
      · rintro ⟨hq, hNone⟩
        have hNow := (hFollow q (own_tablesFor hRest hq)).mp hNone
        exact ⟨⟨hq, hNow.1⟩, hNow.2⟩
      · rintro ⟨⟨hq, hNone⟩, hNot⟩
        exact ⟨hq, (hFollow q (own_tablesFor hRest hq)).mpr ⟨hNone, hNot⟩⟩
    have hUnion : missing s a (tablesFor (addr :: rest)) =
        missing s a (tablePaths addr) ∪ (missing s a (tablesFor rest) \ tablePaths addr) := by
      ext q
      simp only [missing, tablesFor, Finset.mem_filter, Finset.mem_union, Finset.mem_sdiff]
      tauto
    rw [hUnion, hMissing, Finset.card_union_of_disjoint]
    refine Finset.disjoint_left.mpr fun q hq hOther => ?_
    exact (Finset.mem_sdiff.mp hOther).2 (Finset.mem_filter.mp hq).1
  have hv : v.pgd mm = some a := (congrFun hPgd mm).trans ha
  constructor
  · rintro (hNil | ⟨b, hb, hAll, hEnough⟩)
    · cases hNil
    · obtain rfl : a = b := Option.some.inj (ha.symm.trans hb)
      have hRest := (List.forall_mem_cons.mp hAll).2
      rw [hCard hRest, List.length_cons] at hEnough
      exact Or.inr ⟨a, hv, hRest, by omega⟩
  · rintro (rfl | ⟨b, hb, hRest, hEnough⟩)
    · refine Or.inr ⟨a, ha, List.forall_mem_cons.mpr ⟨hUser, fun u hu => absurd hu List.not_mem_nil⟩, ?_⟩
      rw [hCard fun u hu => absurd hu List.not_mem_nil, List.length_cons, List.length_nil]
      simp only [tablesFor, missing, Finset.filter_empty, Finset.card_empty] at hLeft ⊢
      omega
    · obtain rfl : a = b := Option.some.inj (hv.symm.trans hb)
      refine Or.inr ⟨a, ha, List.forall_mem_cons.mpr ⟨hUser, hRest⟩, ?_⟩
      rw [hCard hRest, List.length_cons]
      omega

def userPte (paddr : UInt64) (flags : UInt32) : UInt64 := (paddr &&& pteAddrMask) ||| Vmm.userPteFlags flags

theorem pteToPhys_userPte (flags : UInt32) (hAligned : paddr &&& pteAddrMask = paddr) :
    pteToPhys (userPte paddr flags) = paddr := by
  have hFlags : Vmm.userPteFlags flags &&& pteAddrMask = 0 := by
    unfold Vmm.userPteFlags
    dsimp only
    split_ifs <;> decide
  rw [pteToPhys, userPte, masked_or_and, hFlags, UInt64.and_self, UInt64.or_zero, hAligned]

structure PageMapped (img : Image) (mm : Nat) (flags : UInt32) (addr paddr : UInt64) (s v : Vmm) : Prop where
  inv : Inv img v
  upper : Upper img v
  sets : Sets img s v (some mm) (path addr) (pteIndex addr 3) (userPte paddr flags)
  user : addr < userVmaEnd
  pages : ∃ ps, s.pages = paddr :: ps ∧ v.pages <:+ ps
  rest : ∀ rest, Mappable img s mm (addr :: rest) ↔ Mappable img v mm rest

structure PageFailed (img : Image) (mm : Nat) (addr : UInt64) (s v : Vmm) : Prop where
  pgd : v.pgd = s.pgd
  translations : ∀ a u, s.pgd mm = some a → v.translate a u = s.translate a u
  rest : ∀ rest, ¬ Mappable img s mm (addr :: rest)

theorem missing_mono (s : Vmm) (a : UInt64) {paths paths' : Finset (List Nat)} (h : paths ⊆ paths') :
    (missing s a paths).card ≤ (missing s a paths').card := Finset.card_le_card (Finset.filter_subset_filter _ h)

theorem mapUserPages_cons {s : UserMemory} {rest : List UInt64} (h : Inv img s.vmm) (hUpper : Upper img s.vmm) :
    (∃ ret v, ret ≠ 0 ∧ s.mapUserPages img mm flags (addr :: rest) = (ret, { s with vmm := v }) ∧
        PageFailed img mm addr s.vmm v) ∨
      ∃ paddr v, s.mapUserPages img mm flags (addr :: rest) =
          UserMemory.mapUserPages img mm flags rest { s with vmm := v, live := paddr :: s.live } ∧
        PageMapped img mm flags addr paddr s.vmm v := by
  rw [UserMemory.mapUserPages, Vmm.pmmAllocPage]
  cases hPages : s.vmm.pages with
  | nil =>
    refine Or.inl ⟨-1, s.vmm, by decide, rfl, rfl, fun _ _ _ => rfl, fun rest hMappable => ?_⟩
    rcases hMappable with hNil | ⟨a, -, -, hEnough⟩
    · cases hNil
    · rw [hPages, List.length_cons, List.length_nil] at hEnough
      omega
  | cons paddr ps =>
    have hAlloc : s.vmm.pmmAllocPage = (paddr, { s.vmm with pages := ps }) := by
      rw [Vmm.pmmAllocPage, hPages]
    obtain ⟨hInv, -⟩ := h.pmmAllocPage hAlloc
    have hNe : paddr ≠ 0 := (h.supply.fresh.2 paddr (hPages ▸ List.mem_cons_self)).1
    dsimp only
    rw [if_neg hNe]
    cases hMap : ({ s.vmm with pages := ps } : Vmm).vmmMapUserPage img mm addr paddr flags with
    | mk ret v =>
      dsimp only
      by_cases hRet : ret = 0
      · obtain ⟨hInv', ⟨-, hUser, hSets⟩ | ⟨hFail, -⟩⟩ := hInv.vmmMapUserPage hMap
        rotate_left
        · rw [hRet] at hFail
          cases hFail
        rw [if_neg (not_not.mpr hRet)]
        have hUpper' : Upper img v := by
          have hCall := (@Upper.of_given img s.vmm ps hUpper).mapUserPage hInv mm addr paddr flags
          change Upper img (({ s.vmm with pages := ps } : Vmm).vmmMapUserPage img mm addr paddr flags).2 at hCall
          rwa [hMap] at hCall
        refine Or.inr ⟨paddr, v, rfl, hInv', hUpper', ⟨hSets.pgd, hSets.mmIndex, hSets.self, hSets.others⟩, hUser, ⟨ps, hPages, ?_⟩,
          fun rest => ?_⟩
        all_goals
          cases hPgd : s.vmm.pgd mm with
          | none =>
            unfold Vmm.vmmMapUserPage at hMap
            rw [hPgd] at hMap
            rw [← (Prod.mk.inj hMap).1] at hRet
            cases hRet
          | some a =>
            have hCount := @Inv.mapUserPage_spent img { s.vmm with pages := ps } v mm a addr paddr flags ret hInv hPgd hUser hMap
            rcases hCount with ⟨hFail, -⟩ | ⟨-, hSpent, hFollow⟩
            · exact absurd hRet hFail
            · first
                | exact hSpent.suffix
                | exact mappable_cons_iff hPgd hUser hPages hSets.pgd hSpent hFollow
      · rw [if_pos hRet, List.erase_cons_head]
        obtain ⟨hPgd, hSame⟩ := @Inv.mapUserPage_failed img mm flags { s.vmm with pages := ps } v addr paddr ret hInv
          (hUpper.of_given) hMap hRet
        refine Or.inl ⟨ret, v, hRet, rfl, hPgd, hSame, fun rest hMappable => ?_⟩
        rcases hMappable with hNil | ⟨a, ha, hUser, hEnough⟩
        · cases hNil
        have hFirst := (List.forall_mem_cons.mp hUser).1
        rcases @Inv.mapUserPage_spent img { s.vmm with pages := ps } v mm a addr paddr flags ret hInv ha hFirst hMap with
          ⟨-, hFew⟩ | ⟨hOk, -⟩
        · have hMono : (missing s.vmm a (tablePaths addr)).card ≤ (missing s.vmm a (tablesFor (addr :: rest))).card :=
            missing_mono s.vmm a Finset.subset_union_left
          have hFew' : earlyLeft img s.vmm + ps.length < (missing s.vmm a (tablePaths addr)).card := hFew
          rw [hPages, List.length_cons, List.length_cons] at hEnough
          omega
        · exact hRet hOk

end Page

/-! ### The loop -/

structure AllMapped (img : Image) (mm : Nat) (flags : UInt32) (addrs frames : List UInt64) (s s' : UserMemory) :
    Prop where
  pgd : s'.vmm.pgd = s.vmm.pgd
  live : s'.live = frames.reverse ++ s.live
  fresh : frames.Nodup ∧ ∀ f ∈ frames, f ∈ s.vmm.pages
  entries : ∀ a, s.vmm.pgd mm = some a →
    List.Forall₂ (fun u f => u < userVmaEnd ∧ s'.vmm.translate a u = some (userPte f flags, 0)) addrs frames
  others : ∀ r a u, root img s.vmm.pgd r = some a → (r ≠ none → u < userVmaEnd) →
    ¬ (r = some mm ∧ ∃ x ∈ addrs, SamePage u x) → s'.vmm.translate a u = s.vmm.translate a u

theorem root_own {r : Option Nat} {u : UInt64} (hUser : r ≠ none → u < userVmaEnd) : own r (path u) := by
  cases r with
  | none => exact own_path_kernel u
  | some k => exact own_path_user k (hUser (Option.some_ne_none k))

theorem toNat_lt_of_user {u : UInt64} (h : u < userVmaEnd) : u.toNat < 2 ^ 48 := by
  have hLt : u.toNat < 2 ^ 47 := UInt64.lt_iff_toNat_lt.mp h
  omega

theorem PageMapped.other {s v : Vmm} {addr paddr a u : UInt64} {r : Option Nat}
    (h : PageMapped img mm flags addr paddr s v) (hRoot : root img s.pgd r = some a) (hUser : r ≠ none → u < userVmaEnd)
    (hOther : ¬ (r = some mm ∧ SamePage u addr)) : v.translate a u = s.translate a u := by
  refine h.sets.others r a (path u) (pteIndex u 3) hRoot (root_own hUser) rfl ?_
  rintro ⟨rfl, hPath, hLast⟩
  exact hOther ⟨rfl, samePage_of_indices (toNat_lt_of_user (hUser (Option.some_ne_none mm))) (toNat_lt_of_user h.user)
    hPath hLast⟩

theorem PageMapped.self {s v : Vmm} {addr paddr a : UInt64} (h : PageMapped img mm flags addr paddr s v)
    (ha : s.pgd mm = some a) : v.translate a addr = some (userPte paddr flags, 0) := by
  have hSelf : v.translate a addr = if pteIsValid (userPte paddr flags) then some (userPte paddr flags, 0) else none :=
    h.sets.self a ha
  have hValid : pteIsValid (userPte paddr flags) = true := (userPte_and paddr flags).1
  rw [hSelf, hValid, if_pos rfl]

theorem AllMapped.cons {s s' : UserMemory} {v : Vmm} {addr paddr : UInt64} {rest frames : List UInt64}
    (hAll : AllMapped img mm flags rest frames { s with vmm := v, live := paddr :: s.live } s') (h : Inv img s.vmm)
    (hFirst : ∀ x ∈ rest, ¬ SamePage addr x) (hStep : PageMapped img mm flags addr paddr s.vmm v) :
    AllMapped img mm flags (addr :: rest) (paddr :: frames) s s' := by
  have hPgd : v.pgd = s.vmm.pgd := hStep.sets.pgd
  obtain ⟨ps, hPages, hSuffix⟩ := hStep.pages
  have hNodup := h.supply.fresh.1
  rw [hPages] at hNodup
  refine ⟨hAll.pgd.trans hPgd, ?_, ⟨?_, ?_⟩, fun a ha => ?_, fun r a u hRoot hUser hOther => ?_⟩
  · rw [hAll.live, List.reverse_cons, List.append_assoc]
    rfl
  · refine List.nodup_cons.mpr ⟨fun hMem => ?_, hAll.fresh.1⟩
    exact (List.nodup_cons.mp hNodup).1 (hSuffix.subset (hAll.fresh.2 paddr hMem))
  · rw [hPages]
    refine List.forall_mem_cons.mpr ⟨List.mem_cons_self, fun f hf => ?_⟩
    exact List.mem_cons_of_mem _ (hSuffix.subset (hAll.fresh.2 f hf))
  · have hNow : v.pgd mm = some a := (congrFun hPgd mm).trans ha
    refine List.Forall₂.cons ⟨hStep.user, ?_⟩ (hAll.entries a hNow)
    have hKept := hAll.others (some mm) a addr hNow (fun _ => hStep.user) fun hHere => ?_
    · exact hKept.trans (hStep.self ha)
    · obtain ⟨-, x, hx, hSame⟩ := hHere
      exact hFirst x hx hSame
  · have hNow : root img v.pgd r = some a := hPgd ▸ hRoot
    rw [hAll.others r a u hNow hUser fun hHere => ?_]
    · refine hStep.other hRoot hUser fun hHere => hOther ⟨hHere.1, addr, List.mem_cons_self, hHere.2⟩
    · obtain ⟨hr, x, hx, hSame⟩ := hHere
      exact hOther ⟨hr, x, List.mem_cons_of_mem _ hx, hSame⟩

theorem mapUserPages_spec {s s' : UserMemory} {addrs : List UInt64} {ret : Int} (h : Inv img s.vmm)
    (hUpper : Upper img s.vmm) (hApart : addrs.Pairwise fun u v => ¬ SamePage u v)
    (hMap : s.mapUserPages img mm flags addrs = (ret, s')) :
    s'.vmaList = s.vmaList ∧ s'.totalVm = s.totalVm ∧
      ((ret ≠ 0 ∧ ¬ Mappable img s.vmm mm addrs ∧ s.live <:+ s'.live) ∨
        (ret = 0 ∧ Mappable img s.vmm mm addrs ∧ ∃ frames, AllMapped img mm flags addrs frames s s')) := by
  induction addrs generalizing s with
  | nil =>
    obtain ⟨rfl, rfl⟩ := Prod.mk.inj hMap
    refine ⟨rfl, rfl, Or.inr ⟨rfl, Or.inl rfl, [], rfl, rfl, ⟨List.nodup_nil, fun f hf => absurd hf List.not_mem_nil⟩,
      fun _ _ => List.Forall₂.nil, fun _ _ _ _ _ _ => rfl⟩⟩
  | cons addr rest ih =>
    obtain ⟨hFirst, hRest⟩ := List.pairwise_cons.mp hApart
    rcases @mapUserPages_cons img mm flags addr s rest h hUpper with ⟨ret', v, hFail, hEq, hStep⟩ | ⟨paddr, v, hEq, hStep⟩
    · rw [hEq] at hMap
      obtain ⟨rfl, rfl⟩ := Prod.mk.inj hMap
      exact ⟨rfl, rfl, Or.inl ⟨hFail, hStep.rest rest, List.suffix_rfl⟩⟩
    · rw [hEq] at hMap
      obtain ⟨hVmas, hTotal, hCases⟩ := ih hStep.inv hStep.upper hRest hMap
      refine ⟨hVmas, hTotal, ?_⟩
      rw [hStep.rest]
      rcases hCases with ⟨hRet, hNot, hLive⟩ | ⟨hRet, hCan, frames, hAll⟩
      · exact Or.inl ⟨hRet, hNot, (List.suffix_cons paddr s.live).trans hLive⟩
      · refine Or.inr ⟨hRet, hCan, paddr :: frames, hAll.cons h hFirst hStep⟩

/-! ### The pages of a range -/

def rangePages (vaddr size : UInt64) : List UInt64 :=
  pageAddrs (vaddr &&& ~~~(pageSize - 1)) ((vaddr + size + pageSize - 1) &&& ~~~(pageSize - 1))

section Addresses

variable {start stop x : UInt64}

theorem toNat_pageAddr {i : Nat} (hStart : start.toNat % 4096 = 0) (hStop : stop.toNat % 4096 = 0)
    (hi : i < (stop.toNat - start.toNat + 4095) / 4096) :
    (start + UInt64.ofNat (i * 4096)).toNat = start.toNat + i * 4096 := by
  have hLt := stop.toNat_lt
  have hSmall : start.toNat + i * 4096 < 2 ^ 64 := by omega
  rw [UInt64.toNat_add, UInt64.toNat_ofNat', Nat.mod_eq_of_lt (Nat.lt_of_le_of_lt (Nat.le_add_left _ _) hSmall),
    Nat.mod_eq_of_lt hSmall]

theorem mem_pageAddrs (hStart : start.toNat % 4096 = 0) (hStop : stop.toNat % 4096 = 0) :
    x ∈ pageAddrs start stop ↔ x.toNat % 4096 = 0 ∧ start.toNat ≤ x.toNat ∧ x.toNat < stop.toNat := by
  simp only [pageAddrs, List.mem_map, List.mem_range]
  constructor
  · rintro ⟨i, hi, rfl⟩
    rw [toNat_pageAddr hStart hStop hi]
    omega
  · rintro ⟨hAligned, hLow, hHigh⟩
    refine ⟨(x.toNat - start.toNat) / 4096, by omega, ?_⟩
    rw [← UInt64.toNat_inj, toNat_pageAddr hStart hStop (by omega)]
    omega

theorem pageAddrs_apart (hStart : start.toNat % 4096 = 0) (hStop : stop.toNat % 4096 = 0) :
    (pageAddrs start stop).Pairwise fun u v => ¬ SamePage u v := by
  unfold pageAddrs
  rw [List.pairwise_map]
  refine List.Pairwise.imp_of_mem (fun {i j} hi hj hLt hSame => ?_) List.pairwise_lt_range
  unfold SamePage at hSame
  rw [toNat_pageAddr hStart hStop (List.mem_range.mp hi), toNat_pageAddr hStart hStop (List.mem_range.mp hj)] at hSame
  omega

end Addresses

section Range

variable {vaddr size u : UInt64}

theorem pageMask_mod (x : UInt64) : (x &&& ~~~(pageSize - 1)).toNat % 4096 = 0 := by
  rw [toNat_and_pageMask]
  exact Nat.mul_mod_left _ _

theorem rangePages_apart (vaddr size : UInt64) : (rangePages vaddr size).Pairwise fun u v => ¬ SamePage u v :=
  pageAddrs_apart (pageMask_mod _) (pageMask_mod _)

theorem toNat_rangeStop (h : vaddr.toNat + size.toNat + 4095 < 2 ^ 64) :
    ((vaddr + size + pageSize - 1) &&& ~~~(pageSize - 1)).toNat =
      (vaddr.toNat + size.toNat + 4095) / 4096 * 4096 := by
  have hSum : vaddr + size + pageSize - 1 = vaddr + size + 4095 := by
    rw [UInt64.sub_eq_add_neg, UInt64.add_assoc]
    rfl
  rw [toNat_and_pageMask, hSum, UInt64.toNat_add, UInt64.toNat_add, show (4095 : UInt64).toNat = 4095 from rfl,
    Nat.mod_add_mod, Nat.mod_eq_of_lt h]

theorem inRange_iff (h : vaddr.toNat + size.toNat + 4095 < 2 ^ 64) :
    InRange vaddr size u ↔ ∃ x ∈ rangePages vaddr size, SamePage u x := by
  have hMem := fun x => @mem_pageAddrs _ _ x (pageMask_mod vaddr) (pageMask_mod (vaddr + size + pageSize - 1))
  rw [toNat_rangeStop h, toNat_and_pageMask] at hMem
  unfold InRange rangePages SamePage
  constructor
  · rintro ⟨hLow, hHigh⟩
    refine ⟨u &&& ~~~(pageSize - 1), (hMem _).mpr ?_, ?_⟩
    · rw [toNat_and_pageMask]
      omega
    · rw [toNat_and_pageMask]
      omega
  · rintro ⟨x, hx, hSame⟩
    have hBounds := (hMem x).mp hx
    omega

end Range

/-! ### The call -/

/-- When the call is all or nothing: no area can be recorded and not even the first page can be mapped, or the whole
range can be mapped, its end is not past the end of memory, there is an area for it, and no page is overwritten that is
allocated and mapped nowhere else. -/
def RangeOk (img : Image) (s : UserMemory) (pages : List UInt64) (mm : Nat) (vaddr size : UInt64) : Prop :=
  (vmaPoolSize ≤ s.vmaIndex ∧ ¬ Mappable img (s.vmm.given pages) mm ((rangePages vaddr size).take 1)) ∨
    (Mappable img (s.vmm.given pages) mm (rangePages vaddr size) ∧ vaddr.toNat + size.toNat + 4095 < 2 ^ 64 ∧
      (s.vmaIndex < vmaPoolSize ∨ Covered s mm vaddr size) ∧
      ∀ a u e, s.vmm.pgd mm = some a → InRange vaddr size u → s.vmm.translate a u = some (e, 0) →
        pteToPhys e ∈ s.live → MappedOutside img s.vmm mm (InRange vaddr size) (pteToPhys e))

section Call

variable {s s₀ s' : UserMemory} {pages : List UInt64} {vaddr size : UInt64} {ret : Int}

theorem addVma_cases (s : UserMemory) (mm : Nat) (start stop : UInt64) (flags : UInt32) :
    (s.vmmAddVma mm start stop flags).2.vmm = s.vmm ∧ (s.vmmAddVma mm start stop flags).2.live = s.live ∧
      ((vmaPoolSize ≤ s.vmaIndex ∧ (s.vmmAddVma mm start stop flags).2 = s) ∨
        (s.vmaIndex < vmaPoolSize ∧
          (s.vmmAddVma mm start stop flags).2.vmaList mm = ⟨start, stop, flags⟩ :: s.vmaList mm)) := by
  unfold UserMemory.vmmAddVma
  split
  · exact ⟨rfl, rfl, Or.inl ⟨‹_›, rfl⟩⟩
  · exact ⟨rfl, rfl, Or.inr ⟨Nat.not_le.mp ‹_›, Function.update_self ..⟩⟩

theorem nothingDone_iff (h : Inv img s.vmm) (hUpper : Upper img s.vmm) (hLive : ∀ p ∈ s.vmm.pages, p ∉ s.live)
    (addrs : List UInt64) (hApart : addrs.Pairwise fun u v => ¬ SamePage u v)
    (hMap : s.mapUserPages img mm flags addrs = (ret, s')) (hFail : ret ≠ 0) :
    (∀ p ∈ s'.live, p ∈ s.live) ∧ s'.vmm.pgd mm = s.vmm.pgd mm ∧
        (∀ a, s.vmm.pgd mm = some a → ∀ u, s'.vmm.translate a u = s.vmm.translate a u) ↔
      ¬ Mappable img s.vmm mm (addrs.take 1) := by
  cases addrs with
  | nil => exact absurd (Prod.mk.inj hMap).1.symm hFail
  | cons addr rest =>
    rcases @mapUserPages_cons img mm flags addr s rest h hUpper with ⟨ret', v, -, hEq, hStep⟩ | ⟨paddr, v, hEq, hStep⟩
    · rw [hEq] at hMap
      obtain ⟨-, rfl⟩ := Prod.mk.inj hMap
      exact iff_of_true ⟨fun p hp => hp, congrFun hStep.pgd mm, fun a ha u => hStep.translations a u ha⟩ (hStep.rest [])
    · rw [hEq] at hMap
      have hRest := (List.pairwise_cons.mp hApart).2
      obtain ⟨ps, hPages, -⟩ := hStep.pages
      refine iff_of_false (fun hDone => ?_) (not_not.mpr ((hStep.rest []).mpr (Or.inl rfl)))
      rcases (mapUserPages_spec hStep.inv hStep.upper hRest hMap).2.2 with ⟨-, -, hLater⟩ | ⟨hRet, -⟩
      · refine hLive paddr (hPages ▸ List.mem_cons_self) (hDone.1 paddr (hLater.subset ?_))
        exact List.mem_cons_self
      · exact hFail hRet

theorem Mappable.first {addr : UInt64} {rest : List UInt64} (h : Inv img s.vmm) (hUpper : Upper img s.vmm)
    (hCan : Mappable img s.vmm mm (addr :: rest)) : Mappable img s.vmm mm [addr] := by
  rcases @mapUserPages_cons img mm 0 addr s rest h hUpper with ⟨-, v, -, -, hStep⟩ | ⟨paddr, v, -, hStep⟩
  · exact absurd hCan (hStep.rest rest)
  · exact (hStep.rest []).mpr (Or.inl rfl)

section Done

variable {addrs frames : List UInt64} {a x y : UInt64}

theorem AllMapped.entry (hAll : AllMapped img mm flags addrs frames s s') (h : Inv img s.vmm)
    (ha : s.vmm.pgd mm = some a) {i : Nat} (hi : i < addrs.length) : ∃ hf : i < frames.length,
    s'.vmm.translate a addrs[i] = some (userPte frames[i] flags, 0) ∧ pteToPhys (userPte frames[i] flags) = frames[i] := by
  obtain ⟨hLength, hGet⟩ := List.forall₂_iff_get.mp (hAll.entries a ha)
  have hf : i < frames.length := hLength ▸ hi
  refine ⟨hf, (hGet i hi hf).2, pteToPhys_userPte flags ?_⟩
  exact (h.supply.fresh.2 _ (hAll.fresh.2 _ (List.getElem_mem hf))).2.1

theorem AllMapped.frame (hAll : AllMapped img mm flags addrs frames s s') (h : Inv img s.vmm)
    (ha : s.vmm.pgd mm = some a) (hx : x ∈ addrs) :
    ∃ e, s'.vmm.translate a x = some (e, 0) ∧ pteToPhys e ∈ frames := by
  obtain ⟨i, hi, rfl⟩ := List.getElem_of_mem hx
  obtain ⟨hf, hWalk, hPhys⟩ := hAll.entry h ha hi
  refine ⟨_, hWalk, ?_⟩
  rw [hPhys]
  exact List.getElem_mem hf

theorem AllMapped.inj (hAll : AllMapped img mm flags addrs frames s s') (h : Inv img s.vmm) (ha : s.vmm.pgd mm = some a)
    (hx : x ∈ addrs) (hy : y ∈ addrs) {e e' : UInt64} (hX : s'.vmm.translate a x = some (e, 0))
    (hY : s'.vmm.translate a y = some (e', 0)) (hPhys : pteToPhys e = pteToPhys e') : x = y := by
  obtain ⟨i, hi, rfl⟩ := List.getElem_of_mem hx
  obtain ⟨j, hj, rfl⟩ := List.getElem_of_mem hy
  obtain ⟨hf, hWalk, hFrame⟩ := hAll.entry h ha hi
  obtain ⟨hg, hWalk', hFrame'⟩ := hAll.entry h ha hj
  rw [hWalk, Option.some_inj, Prod.mk.injEq] at hX
  rw [hWalk', Option.some_inj, Prod.mk.injEq] at hY
  rw [← hX.1, ← hY.1, hFrame, hFrame'] at hPhys
  obtain rfl := (List.Nodup.getElem_inj_iff hAll.fresh.1).mp hPhys
  rfl

theorem AllMapped.mappedOutside_iff (hAll : AllMapped img mm flags (rangePages vaddr size) frames s s')
    (h : Inv img s.vmm) (hEnd : vaddr.toNat + size.toNat + 4095 < 2 ^ 64) (hLive : ∀ p ∈ s.vmm.pages, p ∉ s.live)
    {p : UInt64} (hp : p ∈ s.live) :
    MappedOutside img s'.vmm mm (fun _ => False) p ↔ MappedOutside img s.vmm mm (InRange vaddr size) p := by
  constructor
  · rintro ⟨r, b, u, e, hRoot, hUser, hWalk, rfl, -⟩
    rw [hAll.pgd] at hRoot
    by_cases hHere : r = some mm ∧ InRange vaddr size u
    · obtain ⟨rfl, hIn⟩ := hHere
      obtain ⟨x, hx, hSame⟩ := (inRange_iff hEnd).mp hIn
      obtain ⟨e', hNew, hFrame⟩ := hAll.frame h hRoot hx
      rw [translate_of_samePage hSame, hNew, Option.some_inj, Prod.mk.injEq] at hWalk
      exact absurd hp (hLive _ (hAll.fresh.2 _ (hWalk.1 ▸ hFrame)))
    · refine ⟨r, b, u, e, hRoot, hUser, ?_, rfl, hHere⟩
      rw [← hWalk]
      refine (hAll.others r b u hRoot hUser fun hIn => hHere ⟨hIn.1, (inRange_iff hEnd).mpr hIn.2⟩).symm
  · rintro ⟨r, b, u, e, hRoot, hUser, hWalk, rfl, hNot⟩
    refine ⟨r, b, u, e, by rwa [hAll.pgd], hUser, ?_, rfl, fun hHere => hHere.2⟩
    rw [← hWalk]
    exact hAll.others r b u hRoot hUser fun hIn => hNot ⟨hIn.1, (inRange_iff hEnd).mpr hIn.2⟩

end Done

theorem rangeDone_iff {frames : List UInt64} {t : UserMemory}
    (hAll : AllMapped img mm flags (rangePages vaddr size) frames s s') (h : Inv img s.vmm)
    (hLive : ∀ p ∈ s.vmm.pages, p ∉ s.live) (hTaken : t.live = s.live) (hPgd : t.vmm.pgd = s.vmm.pgd)
    (hTables : t.vmm.tables = s.vmm.tables) (hCan : Mappable img s.vmm mm (rangePages vaddr size)) :
    RangeDone img t s' mm vaddr size ↔ vaddr.toNat + size.toNat + 4095 < 2 ^ 64 ∧ Covered s' mm vaddr size ∧
      ∀ a u e, t.vmm.pgd mm = some a → InRange vaddr size u → t.vmm.translate a u = some (e, 0) →
        pteToPhys e ∈ t.live → MappedOutside img t.vmm mm (InRange vaddr size) (pteToPhys e) := by
  have hWalks : ∀ a u, t.vmm.translate a u = s.vmm.translate a u := by
    intro a u
    unfold Vmm.translate
    rw [hTables]
  have hOutside : ∀ p, MappedOutside img t.vmm mm (InRange vaddr size) p ↔
      MappedOutside img s.vmm mm (InRange vaddr size) p := by
    intro p
    unfold MappedOutside
    simp only [hWalks, hPgd]
  constructor
  · intro hDone
    have hEnd : vaddr.toNat + size.toNat + 4095 < 2 ^ 64 := by
      obtain ⟨v, -, -, hStop⟩ := hDone.covered
      have hLt := v.stop.toNat_lt
      omega
    refine ⟨hEnd, hDone.covered, fun a u e ha hIn hWalk hp => (hOutside _).mpr ?_⟩
    rw [hTaken] at hp
    refine (hAll.mappedOutside_iff h hEnd hLive hp).mp (hDone.kept a u e ha hIn hWalk ?_)
    rw [hAll.live]
    exact List.mem_append_right _ hp
  · rintro ⟨hEnd, hCovered, hKept⟩
    have hSpace : ∀ u, InRange vaddr size u → ∃ a, s.vmm.pgd mm = some a := by
      intro u hIn
      obtain ⟨x, hx, -⟩ := (inRange_iff hEnd).mp hIn
      rcases hCan with hNil | ⟨a, ha, -⟩
      · rw [hNil] at hx
        cases hx
      · exact ⟨a, ha⟩
    refine ⟨hCovered, fun u hIn => ?_, fun a u v e e' ha hU hV hWalk hWalk' hPhys => ?_, fun a u e ha hIn hWalk hp => ?_⟩
    · obtain ⟨a, ha⟩ := hSpace u hIn
      obtain ⟨x, hx, hSame⟩ := (inRange_iff hEnd).mp hIn
      obtain ⟨e, hWalk, hMem⟩ := hAll.frame h ha hx
      refine ⟨a, e, by rwa [hAll.pgd], (translate_of_samePage hSame a).trans hWalk, ?_, ?_⟩
      · rw [hAll.live]
        exact List.mem_append_left _ (List.mem_reverse.mpr hMem)
      · rw [hTaken]
        exact hLive _ (hAll.fresh.2 _ hMem)
    · rw [hAll.pgd] at ha
      obtain ⟨x, hx, hSameX⟩ := (inRange_iff hEnd).mp hU
      obtain ⟨y, hy, hSameY⟩ := (inRange_iff hEnd).mp hV
      rw [translate_of_samePage hSameX] at hWalk
      rw [translate_of_samePage hSameY] at hWalk'
      have hSame := hAll.inj h ha hx hy hWalk hWalk' hPhys
      unfold SamePage at hSameX hSameY ⊢
      rw [hSameX, hSameY, hSame]
    · rw [hAll.live, List.mem_append, List.mem_reverse] at hp
      rcases hp with hNew | hOld
      · rw [hPgd] at ha
        obtain ⟨hLength, hEntries⟩ := List.forall₂_iff_get.mp (hAll.entries a ha)
        obtain ⟨i, hf, hEq⟩ := List.getElem_of_mem hNew
        have hi : i < (rangePages vaddr size).length := hLength ▸ hf
        obtain ⟨_, hMapped, hPhys⟩ := hAll.entry h ha hi
        exact ⟨some mm, a, _, _, by rw [hAll.pgd]; exact ha, fun _ => (hEntries i hi hf).1, hMapped, hPhys.trans hEq,
          fun hHere => hHere.2⟩
      · refine (hAll.mappedOutside_iff h hEnd hLive hOld).mpr ((hOutside _).mp (hKept a u e ha hIn hWalk ?_))
        rwa [hTaken]

end Call

/-- In every state, whatever stops the call, `vmm_map_user_range` is all or nothing if and only if `RangeOk` holds. -/
theorem map_user_range_iff {s : UserMemory} (hs : Reachable img s.vmm) {pages : List UInt64}
    (hFresh : Fresh img s.vmm.allocated pages) (hLive : ∀ p ∈ pages, p ∉ s.live) (mm : Nat) (vaddr size : UInt64)
    (flags : UInt32) :
    AllOrNothing img s ((s.given pages).vmmMapUserRange img mm vaddr size flags).2
        ((s.given pages).vmmMapUserRange img mm vaddr size flags).1 mm vaddr size ↔
      RangeOk img s pages mm vaddr size := by
  have hInv : Inv img (s.given pages).vmm := hs.inv.given hFresh
  have hUpper : Upper img (s.given pages).vmm := hs.upper
  obtain ⟨hVmm, hTaken, hArea⟩ := addVma_cases (s.given pages) mm (vaddr &&& ~~~(pageSize - 1))
    ((vaddr + size + pageSize - 1) &&& ~~~(pageSize - 1)) flags
  unfold UserMemory.vmmMapUserRange
  dsimp only
  generalize ((s.given pages).vmmAddVma mm (vaddr &&& ~~~(pageSize - 1))
    ((vaddr + size + pageSize - 1) &&& ~~~(pageSize - 1)) flags).2 = s₀ at hVmm hTaken hArea ⊢
  rw [show pageAddrs (vaddr &&& ~~~(pageSize - 1)) ((vaddr + size + pageSize - 1) &&& ~~~(pageSize - 1)) =
    rangePages vaddr size from rfl]
  have hInv₀ : Inv img s₀.vmm := hVmm ▸ hInv
  have hUpper₀ : Upper img s₀.vmm := hVmm ▸ hUpper
  have hLive₀ : ∀ p ∈ s₀.vmm.pages, p ∉ s₀.live := by
    rw [hVmm, hTaken]
    exact hLive
  have hPgd : s.vmm.pgd = s₀.vmm.pgd := by
    rw [hVmm]
    rfl
  have hTables : s.vmm.tables = s₀.vmm.tables := by
    rw [hVmm]
    rfl
  cases hMap : s₀.mapUserPages img mm flags (rangePages vaddr size) with
  | mk ret s' =>
    obtain ⟨hVmas, hTotal, hCases⟩ := mapUserPages_spec hInv₀ hUpper₀ (rangePages_apart vaddr size) hMap
    dsimp only
    rcases hCases with ⟨hRet, hNot, -⟩ | ⟨hRet, hCan, frames, hAll⟩
    · have hFirst := nothingDone_iff hInv₀ hUpper₀ hLive₀ _ (rangePages_apart vaddr size) hMap hRet
      have hWalks : ∀ a u, s₀.vmm.translate a u = s.vmm.translate a u := by
        intro a u
        unfold Vmm.translate
        rw [hTables]
      rw [hTaken, ← hPgd, hVmm] at hFirst
      simp only [← hVmm, hWalks] at hFirst
      rw [hVmm] at hFirst hNot
      constructor
      · rintro ⟨hFailed, -⟩
        have hNothing := hFailed hRet
        refine Or.inl ⟨?_, hFirst.mp ⟨hNothing.live, hNothing.pgd, hNothing.translations⟩⟩
        rcases hArea with ⟨hFull, -⟩ | ⟨-, hList⟩
        · exact hFull
        · have hVma := hNothing.vmas
          rw [hVmas, hList] at hVma
          exact absurd hVma (List.cons_ne_self _ _)
      · rintro (⟨hFull, hNone⟩ | ⟨hCan, -⟩)
        · obtain ⟨hLiveSame, hPgdSame, hSame⟩ := hFirst.mpr hNone
          rcases hArea with ⟨-, hEq⟩ | ⟨hRoom, -⟩
          · refine ⟨fun _ => ⟨?_, ?_, hPgdSame, hSame, hLiveSame⟩, fun hOk => absurd hOk hRet⟩
            · rw [hVmas, hEq]
              rfl
            · rw [hTotal, hEq]
              rfl
          · exact absurd hRoom (Nat.not_lt.mpr hFull)
        · exact absurd hCan hNot
    · have hDone := rangeDone_iff hAll hInv₀ hLive₀ (show s.live = s₀.live from hTaken.symm) hPgd hTables hCan
      have hCovered : vaddr.toNat + size.toNat + 4095 < 2 ^ 64 →
          (Covered s' mm vaddr size ↔ s.vmaIndex < vmaPoolSize ∨ Covered s mm vaddr size) := by
        intro hEnd
        unfold Covered
        rw [hVmas]
        rcases hArea with ⟨hFull, hEq⟩ | ⟨hRoom, hList⟩
        · rw [hEq]
          exact ⟨Or.inr, fun hOr => hOr.resolve_left (Nat.not_lt.mpr hFull)⟩
        · refine iff_of_true ⟨_, hList ▸ List.mem_cons_self, ?_, ?_⟩ (Or.inl hRoom)
          · exact (toNat_and_pageMask vaddr).le
          · exact (toNat_rangeStop hEnd).ge
      have hStart : Mappable img (s.vmm.given pages) mm ((rangePages vaddr size).take 1) := by
        rw [hVmm] at hCan
        cases hList : rangePages vaddr size with
        | nil => exact Or.inl rfl
        | cons addr rest =>
          rw [hList] at hCan
          exact @Mappable.first img mm (s.given pages) addr rest hInv hUpper hCan
      rw [hVmm] at hCan
      constructor
      · rintro ⟨-, hOk⟩
        obtain ⟨hEnd, hCover, hKept⟩ := hDone.mp (hOk hRet)
        exact Or.inr ⟨hCan, hEnd, (hCovered hEnd).mp hCover, hKept⟩
      · rintro (⟨-, hNone⟩ | ⟨-, hEnd, hCover, hKept⟩)
        · exact absurd hStart hNone
        · exact ⟨fun hFailed => absurd hRet hFailed, fun _ => hDone.mpr ⟨hEnd, (hCovered hEnd).mpr hCover, hKept⟩⟩

def oneSpace : UserMemory where
  vmm := (((boot sampleImage fun _ _ => 0).given []).vmmCreateAddressSpace sampleImage).2
  vmaIndex := 0
  vmaList := fun _ => []
  totalVm := fun _ => 0
  live := []

theorem map_user_range_one :
    AllOrNothing sampleImage oneSpace ((oneSpace.given [0x6000]).vmmMapUserRange sampleImage 0 0x1000 0x1000 vmWrite).2
        ((oneSpace.given [0x6000]).vmmMapUserRange sampleImage 0 0x1000 0x1000 vmWrite).1 0 0x1000 0x1000 ↔
      RangeOk sampleImage oneSpace [0x6000] 0 0x1000 0x1000 :=
  map_user_range_iff ⟨fun _ _ => 0, Or.inl (Run.call .createAddressSpace [] (Run.refl _) (by decide))⟩
    (by decide +kernel) (fun _ _ => List.not_mem_nil) 0 0x1000 0x1000 vmWrite

theorem first_page_stays :
    ¬ AllOrNothing sampleImage oneSpace
      ((oneSpace.given [0x6000]).vmmMapUserRange sampleImage 0 0x1000 0x2000 vmWrite).2
      ((oneSpace.given [0x6000]).vmmMapUserRange sampleImage 0 0x1000 0x2000 vmWrite).1 0 0x1000 0x2000 := by
  rintro ⟨hFailed, -⟩
  have hNothing := hFailed (by decide +kernel)
  have hStays : (0x6000 : UInt64) ∈
      ((oneSpace.given [0x6000]).vmmMapUserRange sampleImage 0 0x1000 0x2000 vmWrite).2.live := by decide +kernel
  exact absurd (hNothing.live _ hStays) List.not_mem_nil

end UnixOS.Paging
