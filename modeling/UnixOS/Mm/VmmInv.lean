import Mathlib.Data.List.Nodup
import UnixOS.Lib.BitFields
import UnixOS.Mm.Vmm

/-! # The tables of the kernel and of the address spaces stay apart

Each table is reached by one path only: by one of the kernel, or by one that starts in the lower half of
an address space. The upper halves share the kernel's tables and are not counted.
-/

namespace UnixOS.Paging

open TableForest BitFields

/-! ### Entries -/

section Entries

variable {pte t : UInt64}

theorem pteIsValid_of_pteIsTable (h : pteIsTable pte = true) : pteIsValid pte = true := by
  unfold pteIsTable at h
  unfold pteIsValid
  have hOne : pte &&& pteValid = pte &&& (pteValid ||| pteTable) &&& pteValid := by
    rw [UInt64.and_assoc]
    rfl
  rw [hOne, eq_of_beq h]
  rfl

theorem tableOf_of_invalid (h : pteIsValid pte = false) : tableOf pte = none := by
  refine if_neg fun hTable => ?_
  rw [pteIsValid_of_pteIsTable hTable] at h
  cases h

theorem pteToPhys_physToPte_table (h : t &&& pteAddrMask = t) :
    pteToPhys (physToPte t (pteValid ||| pteTable)) = t := by
  unfold pteToPhys physToPte
  rw [masked_or_and, show (pteValid ||| pteTable) &&& pteAddrMask = 0 by decide, UInt64.or_zero,
    UInt64.and_self, h]

theorem pteIsTable_physToPte (t : UInt64) : pteIsTable (physToPte t (pteValid ||| pteTable)) = true := by
  unfold pteIsTable physToPte
  rw [masked_or_and, show pteAddrMask &&& (pteValid ||| pteTable) = 0 by decide, UInt64.and_zero,
    UInt64.zero_or, UInt64.and_self]
  exact beq_self_eq_true _

theorem tableOf_physToPte (h : t &&& pteAddrMask = t) :
    tableOf (physToPte t (pteValid ||| pteTable)) = some t := by
  rw [tableOf, if_pos (pteIsTable_physToPte t), pteToPhys_physToPte_table h]

end Entries

/-! ### Who owns a path -/

def root (img : Image) (pgd : Nat → Option UInt64) : Option Nat → Option UInt64
  | none => some img.kernelPgd
  | some mm => pgd mm

def own : Option Nat → List Nat → Prop
  | none, path => path.length ≤ 3
  | some _, path => path.length ≤ 3 ∧ ∀ i ∈ path.head?, i < vmmEntries / 2

theorem own_length {r : Option Nat} {p : List Nat} (h : own r p) : p.length ≤ 3 := by
  cases r with
  | none => exact h
  | some mm => exact h.1

theorem own_closed : PrefixClosed own := by
  intro r p i h
  have hLength := own_length h
  rw [List.length_append, List.length_singleton] at hLength
  cases r with
  | none => exact Nat.le_of_succ_le hLength
  | some mm =>
    refine ⟨Nat.le_of_succ_le hLength, fun j hj => h.2 j ?_⟩
    rw [List.head?_append, Option.mem_def.mp hj]
    rfl

theorem not_own_deep {r : Option Nat} {p : List Nat} (h : p.length = 3) (j : Nat) : ¬ own r (p ++ [j]) := by
  intro hOwn
  have hLength := own_length hOwn
  rw [List.length_append, List.length_singleton] at hLength
  omega

def Vmm.Reach (img : Image) (s : Vmm) (r : Option Nat) (p : List Nat) (t : UInt64) : Prop :=
  Reaches tableOf (root img s.pgd) s.tables r p t

structure Supply (img : Image) (s : Vmm) : Prop where
  kernel : img.kernelPgd ∉ s.allocated
  early : ∀ i t, s.earlyTableIndex ≤ i → img.earlyTables[i]? = some t → t ∉ s.allocated
  fresh : Fresh img s.allocated s.pages

structure Inv (img : Image) (s : Vmm) : Prop where
  supply : Supply img s
  separated : Separated tableOf (root img s.pgd) own s.tables
  known : ∀ r p t, own r p → s.Reach img r p t → t ∈ img.kernelPgd :: s.allocated
  slots : ∀ k, s.mmIndex ≤ k → s.pgd k = none
  /-- An address space has no block mappings, -/
  inner : ∀ k p i t, own (some k) (p ++ [i]) → s.Reach img (some k) p t →
    pteIsValid (s.tables t i) = true → pteIsTable (s.tables t i) = true
  /-- and all its pages are closed to the kernel. -/
  marked : ∀ k p i t, own (some k) p → p.length = 3 → s.Reach img (some k) p t →
    pteIsValid (s.tables t i) = true → s.tables t i &&& ptePxn ≠ 0

/-! ### A new table -/

structure Obtained (img : Image) (s : Vmm) (c : UInt64) (s' : Vmm) : Prop where
  aligned : c &&& pteAddrMask = c
  unused : c ∉ img.kernelPgd :: s.allocated
  supply : Supply img s'
  tables : s'.tables = Function.update s.tables c fun _ => 0
  allocated : s'.allocated = c :: s.allocated
  pgd : s'.pgd = s.pgd
  mmIndex : s'.mmIndex = s.mmIndex

theorem Supply.take_early {img : Image} {s : Vmm} (h : Supply img s) {c : UInt64}
    (hc : img.earlyTables[s.earlyTableIndex]? = some c) :
    Obtained img s c { s.clearTable c with earlyTableIndex := s.earlyTableIndex + 1 } where
  aligned := img.aligned c (List.mem_cons_of_mem _ (List.mem_of_getElem? hc))
  unused := by
    rw [List.mem_cons, not_or]
    refine ⟨?_, h.early _ c (Nat.le_refl _) hc⟩
    rintro rfl
    exact (List.nodup_cons.mp img.nodup).1 (List.mem_of_getElem? hc)
  supply :=
    { kernel := by
        rintro (_ | ⟨_, hMem⟩)
        · exact (List.nodup_cons.mp img.nodup).1 (List.mem_of_getElem? hc)
        · exact h.kernel hMem
      early := by
        intro i t hi ht
        rintro (_ | ⟨_, hMem⟩)
        · obtain ⟨hLt, hAt⟩ := List.getElem?_eq_some_iff.mp hc
          obtain ⟨hLt', hAt'⟩ := List.getElem?_eq_some_iff.mp ht
          have hEq := (List.Nodup.getElem_inj_iff (List.nodup_cons.mp img.nodup).2).mp (hAt.trans hAt'.symm)
          change s.earlyTableIndex + 1 ≤ i at hi
          omega
        · exact h.early i t (Nat.le_of_succ_le hi) ht hMem
      fresh := by
        refine ⟨h.fresh.1, fun page hPage => ?_⟩
        obtain ⟨hNe, hAligned, hUnused, hStatic⟩ := h.fresh.2 page hPage
        refine ⟨hNe, hAligned, ?_, hStatic⟩
        rintro (_ | ⟨_, hMem⟩)
        · exact hStatic (List.mem_cons_of_mem _ (List.mem_of_getElem? hc))
        · exact hUnused hMem }
  tables := rfl
  allocated := rfl
  pgd := rfl
  mmIndex := rfl

theorem Supply.take_page {img : Image} {s : Vmm} (h : Supply img s) {c : UInt64} {pages : List UInt64}
    (hc : s.pages = c :: pages) : Obtained img s c (({ s with pages } : Vmm).clearTable c) := by
  have hFresh := h.fresh
  rw [hc] at hFresh
  obtain ⟨hNodup, hAll⟩ := hFresh
  obtain ⟨hNew, hRest⟩ := List.nodup_cons.mp hNodup
  obtain ⟨hNe, hAligned, hUnused, hStatic⟩ := hAll c List.mem_cons_self
  rw [List.mem_cons, not_or] at hStatic
  refine ⟨hAligned, ?_, ⟨?_, ?_, hRest, ?_⟩, rfl, rfl, rfl, rfl⟩
  · rw [List.mem_cons, not_or]
    exact ⟨hStatic.1, hUnused⟩
  · rintro (_ | ⟨_, hMem⟩)
    · exact hStatic.1 rfl
    · exact h.kernel hMem
  · intro i t hi ht
    rintro (_ | ⟨_, hMem⟩)
    · exact hStatic.2 (List.mem_of_getElem? ht)
    · exact h.early i t hi ht hMem
  · intro page hPage
    obtain ⟨hNe', hAligned', hUnused', hStatic'⟩ := hAll page (List.mem_cons_of_mem _ hPage)
    refine ⟨hNe', hAligned', ?_, hStatic'⟩
    rintro (_ | ⟨_, hMem⟩)
    · exact hNew hPage
    · exact hUnused' hMem

theorem Supply.allocPageTable {img : Image} {s s' : Vmm} (h : Supply img s) {res : Option UInt64}
    (hAlloc : s.allocPageTable img = (res, s')) :
    res = none ∧ s' = s ∨ ∃ c, res = some c ∧ Obtained img s c s' := by
  unfold Vmm.allocPageTable at hAlloc
  cases hEarly : img.earlyTables[s.earlyTableIndex]? with
  | some c =>
    simp only [hEarly, Prod.mk.injEq] at hAlloc
    obtain ⟨rfl, rfl⟩ := hAlloc
    exact Or.inr ⟨c, rfl, h.take_early hEarly⟩
  | none =>
    unfold Vmm.pmmAllocPage at hAlloc
    cases hPages : s.pages with
    | nil =>
      simp only [hEarly, hPages, if_true, Prod.mk.injEq] at hAlloc
      exact Or.inl ⟨hAlloc.1.symm, hAlloc.2.symm⟩
    | cons c pages =>
      have hNe : c ≠ 0 := (h.fresh.2 c (hPages ▸ List.mem_cons_self)).1
      simp only [hEarly, hPages, if_neg hNe, Prod.mk.injEq] at hAlloc
      obtain ⟨rfl, rfl⟩ := hAlloc
      exact Or.inr ⟨c, rfl, h.take_page hPages⟩

structure Quiet (img : Image) (s s' : Vmm) : Prop where
  pgd : s'.pgd = s.pgd
  mmIndex : s'.mmIndex = s.mmIndex
  resolve : ∀ r a q k, root img s.pgd r = some a → own r q → q.length = 3 →
    resolve tableOf pteIsValid s'.tables a q k = resolve tableOf pteIsValid s.tables a q k

theorem Quiet.refl (img : Image) (s : Vmm) : Quiet img s s := ⟨rfl, rfl, fun _ _ _ _ _ _ _ => rfl⟩

theorem Quiet.trans {img : Image} {s s' s'' : Vmm} (h : Quiet img s s') (h' : Quiet img s' s'') :
    Quiet img s s'' where
  pgd := h'.pgd.trans h.pgd
  mmIndex := h'.mmIndex.trans h.mmIndex
  resolve := by
    intro r a q k hRoot hq hLength
    rw [h'.resolve r a q k (h.pgd ▸ hRoot) hq hLength, h.resolve r a q k hRoot hq hLength]

section Grow

variable {img : Image} {s s' : Vmm} {r : Option Nat} {p : List Nat} {i : Nat} {t c : UInt64}

def Vmm.link (s : Vmm) (t : UInt64) (i : Nat) (c : UInt64) : Vmm :=
  s.write t i (physToPte c (pteValid ||| pteTable))

theorem Inv.installs (h : Inv img s) (hNew : Obtained img s c s') (hOwn : own r (p ++ [i]))
    (hReach : s.Reach img r p t) (hInvalid : pteIsValid (s.tables t i) = false) :
    Installs tableOf pteIsValid (root img s.pgd) own s.tables r p i t c 0
      (physToPte c (pteValid ||| pteTable)) where
  own_next := hOwn
  reaches := hReach
  vacant := tableOf_of_invalid hInvalid
  dead := hInvalid
  fresh := fun r' q hq hc => hNew.unused (h.known r' q c hq hc)
  leads := tableOf_physToPte hNew.aligned
  zero_child := rfl
  zero_dead := rfl

theorem Obtained.link_tables (hNew : Obtained img s c s') (t : UInt64) (i : Nat) :
    (s'.link t i c).tables = install s.tables 0 t i (physToPte c (pteValid ||| pteTable)) c := by
  rw [Vmm.link, Vmm.write, hNew.tables]
  rfl

variable (h : Inv img s) (hNew : Obtained img s c s') (hOwn : own r (p ++ [i]))
  (hReach : s.Reach img r p t) (hInvalid : pteIsValid (s.tables t i) = false)

include h hNew hOwn hReach hInvalid

theorem Inv.link_reach {r' : Option Nat} {q : List Nat} (hq : own r' q) (x : UInt64) :
    (s'.link t i c).Reach img r' q x ↔ s.Reach img r' q x ∨ r' = r ∧ q = p ++ [i] ∧ x = c := by
  have hPgd : (s'.link t i c).pgd = s.pgd := hNew.pgd
  unfold Vmm.Reach
  rw [hPgd, hNew.link_tables]
  exact (h.installs hNew hOwn hReach hInvalid).reaches_iff own_closed h.separated hq x

theorem Inv.link_entry {r' : Option Nat} {q : List Nat} (hq : own r' q) {x : UInt64}
    (hx : (s'.link t i c).Reach img r' q x) (j : Nat) :
    (s.Reach img r' q x ∧ (s'.link t i c).tables x j = s.tables x j) ∨
      (r' = r ∧ q = p ∧ (s'.link t i c).tables x j = physToPte c (pteValid ||| pteTable)) ∨
      (s'.link t i c).tables x j = 0 := by
  have hInst := h.installs hNew hOwn hReach hInvalid
  rw [hNew.link_tables]
  rcases (h.link_reach hNew hOwn hReach hInvalid hq x).mp hx with hOld | ⟨rfl, rfl, rfl⟩
  · by_cases hHere : x = t ∧ j = i
    · obtain ⟨rfl, rfl⟩ := hHere
      obtain ⟨rfl, rfl⟩ := h.separated r' r q p x hq (own_closed r p j hOwn) hOld hReach
      exact Or.inr (Or.inl ⟨rfl, rfl, setEntry_self _ _ _ _⟩)
    · refine Or.inl ⟨hOld, install_of_ne ?_ hHere⟩
      rintro rfl
      exact hInst.fresh r' q hq hOld
  · exact Or.inr (Or.inr (install_new (hInst.ne own_closed)))

theorem Inv.link : Inv img (s'.link t i c) := by
  have hPgd : (s'.link t i c).pgd = s.pgd := hNew.pgd
  have hAllocated : (s'.link t i c).allocated = c :: s.allocated := hNew.allocated
  refine ⟨⟨hNew.supply.kernel, hNew.supply.early, hNew.supply.fresh⟩, ?_, ?_, ?_, ?_, ?_⟩
  · rw [hPgd, hNew.link_tables]
    exact (h.installs hNew hOwn hReach hInvalid).separated own_closed h.separated
  · intro r' q x hq hx
    rw [hAllocated]
    rcases (h.link_reach hNew hOwn hReach hInvalid hq x).mp hx with hOld | ⟨-, -, rfl⟩
    · rcases List.mem_cons.mp (h.known r' q x hq hOld) with rfl | hMem
      · exact List.mem_cons_self
      · exact List.mem_cons_of_mem _ (List.mem_cons_of_mem _ hMem)
    · exact List.mem_cons_of_mem _ List.mem_cons_self
  · intro k hk
    rw [hPgd]
    exact h.slots k (hNew.mmIndex ▸ hk)
  · intro k q j x hNext hx hValid
    rcases h.link_entry hNew hOwn hReach hInvalid (own_closed _ q j hNext) hx j with
      ⟨hOld, hSame⟩ | ⟨-, -, hLink⟩ | hClear
    · rw [hSame] at hValid ⊢
      exact h.inner k q j x hNext hOld hValid
    · rw [hLink]
      exact pteIsTable_physToPte c
    · rw [hClear] at hValid
      cases hValid
  · intro k q j x hq hLength hx hValid
    rcases h.link_entry hNew hOwn hReach hInvalid hq hx j with ⟨hOld, hSame⟩ | ⟨-, rfl, -⟩ | hClear
    · rw [hSame] at hValid ⊢
      exact h.marked k q j x hq hLength hOld hValid
    · exact absurd hOwn (not_own_deep hLength i)
    · rw [hClear] at hValid
      cases hValid

theorem Inv.link_quiet : Quiet img s (s'.link t i c) where
  pgd := hNew.pgd
  mmIndex := hNew.mmIndex
  resolve := by
    intro r' a q k hRoot hq hLength
    rw [hNew.link_tables]
    refine (h.installs hNew hOwn hReach hInvalid).resolve_eq own_closed h.separated hRoot hq ?_
    rintro rfl
    exact not_own_deep hLength i hOwn

end Grow

/-! ### Walking down -/

section Walk

variable {img : Image} {s s' : Vmm} {r : Option Nat} {t : UInt64} {res : Option UInt64}

theorem reach_concat {p : List Nat} {i : Nat} {c : UInt64} (h : s.Reach img r p t)
    (hChild : tableOf (s.tables t i) = some c) : s.Reach img r (p ++ [i]) c :=
  reaches_concat.mpr ⟨t, h, hChild⟩

/-- A walk that allocates keeps what the link to one new table keeps. -/
theorem Inv.walkLevels_keeps {P : Vmm → Prop} {rest p : List Nat} (h : Inv img s) (hReach : s.Reach img r p t)
    (hOwn : own r (p ++ rest)) (hWalk : Vmm.walkLevels img true rest s t = (res, s')) (hP : P s)
    (hLink : ∀ {s s₁ : Vmm} {p : List Nat} {i : Nat} {t c : UInt64}, Inv img s → Obtained img s c s₁ → own r (p ++ [i]) →
      s.Reach img r p t → pteIsValid (s.tables t i) = false → P s → P (s₁.link t i c)) :
    Inv img s' ∧ P s' ∧ ∀ x, res = some x → s'.Reach img r (p ++ rest) x := by
  induction rest generalizing s t p with
  | nil =>
    rw [Vmm.walkLevels, Prod.mk.injEq] at hWalk
    obtain ⟨rfl, rfl⟩ := hWalk
    refine ⟨h, hP, fun x hx => ?_⟩
    rw [List.append_nil, ← Option.some.inj hx]
    exact hReach
  | cons idx rest ih =>
    have hSplit : p ++ idx :: rest = p ++ [idx] ++ rest := by simp
    rw [hSplit] at hOwn ⊢
    have hNext : own r (p ++ [idx]) := own_of_isPrefix own_closed hOwn (List.prefix_append _ _)
    rw [Vmm.walkLevels] at hWalk
    cases hValid : pteIsValid (s.tables t idx) with
    | false =>
      cases hAlloc : s.allocPageTable img with
      | mk new s₁ =>
        rcases h.supply.allocPageTable hAlloc with ⟨rfl, rfl⟩ | ⟨c, rfl, hNew⟩
        · simp only [hValid, hAlloc, Bool.not_false, Bool.not_true, if_true, Bool.false_eq_true, if_false,
            Prod.mk.injEq] at hWalk
          obtain ⟨rfl, rfl⟩ := hWalk
          exact ⟨h, hP, fun x hx => by cases hx⟩
        · simp only [hValid, hAlloc, Bool.not_false, Bool.not_true, if_true, Bool.false_eq_true,
            if_false] at hWalk
          have hLinked := (h.link_reach hNew hNext hReach hValid hNext c).mpr (Or.inr ⟨rfl, rfl, rfl⟩)
          exact ih (h.link hNew hNext hReach hValid) hLinked hOwn hWalk (hLink h hNew hNext hReach hValid hP)
    | true =>
      cases hTable : pteIsTable (s.tables t idx) with
      | true =>
        simp only [hValid, hTable, Bool.not_true, Bool.false_eq_true, if_false, if_true] at hWalk
        exact ih h (reach_concat hReach (if_pos hTable)) hOwn hWalk hP
      | false =>
        simp only [hValid, hTable, Bool.not_true, Bool.false_eq_true, if_false, Prod.mk.injEq] at hWalk
        obtain ⟨rfl, rfl⟩ := hWalk
        exact ⟨h, hP, fun x hx => by cases hx⟩

theorem Inv.walkLevels {rest p : List Nat} (h : Inv img s) (hReach : s.Reach img r p t)
    (hOwn : own r (p ++ rest)) (hWalk : Vmm.walkLevels img true rest s t = (res, s')) :
    Inv img s' ∧ Quiet img s s' ∧ ∀ x, res = some x → s'.Reach img r (p ++ rest) x :=
  h.walkLevels_keeps hReach hOwn hWalk (Quiet.refl img s) fun hInv hNew hNext hAt hInvalid hQuiet =>
    hQuiet.trans (hInv.link_quiet hNew hNext hAt hInvalid)

theorem walkLevels_false (img : Image) (s : Vmm) (p : List Nat) (t : UInt64) :
    Vmm.walkLevels img false p s t = (follow tableOf s.tables t p, s) := by
  induction p generalizing t with
  | nil => rfl
  | cons idx p ih =>
    rw [Vmm.walkLevels, follow]
    cases hValid : pteIsValid (s.tables t idx) with
    | false => simp [tableOf_of_invalid hValid]
    | true =>
      cases hTable : pteIsTable (s.tables t idx) with
      | true => simp [tableOf, hTable, ih]
      | false => simp [tableOf, hTable]

end Walk

end UnixOS.Paging
