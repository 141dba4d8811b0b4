import Mathlib.Data.Finset.Card
import UnixOS.Mm.UserRange

/-! # How many tables a user page needs

The tables that are missing on the way to an address are counted, and so are those that are taken for it: first the
static ones, then pages of the allocator. The upper half of an address space is that of the kernel and is left alone.
-/

namespace UnixOS.Paging

open TableForest BitFields

variable {img : Image} {s s' s'' : Vmm} {mm : Nat} {a t : UInt64}

/-! ### What the allocator of tables has left -/

def earlyLeft (img : Image) (s : Vmm) : Nat := img.earlyTables.length - s.earlyTableIndex

structure Spent (img : Image) (s s' : Vmm) (k : Nat) : Prop where
  early : earlyLeft img s' = earlyLeft img s - k
  pages : s'.pages.length + (k - earlyLeft img s) = s.pages.length
  suffix : s'.pages <:+ s.pages

theorem Spent.refl (img : Image) (s : Vmm) : Spent img s s 0 :=
  ⟨rfl, by rw [Nat.zero_sub, Nat.add_zero], List.suffix_rfl⟩

theorem Spent.trans {j k : Nat} (h : Spent img s s' j) (h' : Spent img s' s'' k) : Spent img s s'' (j + k) := by
  have hEarly := h.early
  have hEarly' := h'.early
  have hPages := h.pages
  have hPages' := h'.pages
  exact ⟨by omega, by omega, h'.suffix.trans h.suffix⟩

theorem Supply.allocPageTable_spent {new : Option UInt64} (h : Supply img s) (hAlloc : s.allocPageTable img = (new, s')) :
    new = none ∧ s' = s ∧ earlyLeft img s = 0 ∧ s.pages = [] ∨
      ∃ c, new = some c ∧ Obtained img s c s' ∧ Spent img s s' 1 := by
  rcases h.allocPageTable hAlloc with ⟨rfl, rfl⟩ | ⟨c, rfl, hNew⟩
  · left
    unfold Vmm.allocPageTable Vmm.pmmAllocPage at hAlloc
    cases hEarly : img.earlyTables[s'.earlyTableIndex]? with
    | some c =>
      rw [hEarly] at hAlloc
      cases hAlloc
    | none =>
      have hLeft : earlyLeft img s' = 0 := Nat.sub_eq_zero_of_le (List.getElem?_eq_none_iff.mp hEarly)
      cases hPages : s'.pages with
      | nil => exact ⟨rfl, rfl, hLeft, rfl⟩
      | cons c pages =>
        have hNe : c ≠ 0 := (h.fresh.2 c (hPages ▸ List.mem_cons_self)).1
        simp only [hEarly, hPages, if_neg hNe] at hAlloc
        cases hAlloc
  · refine Or.inr ⟨c, rfl, hNew, ?_⟩
    unfold Vmm.allocPageTable Vmm.pmmAllocPage at hAlloc
    cases hEarly : img.earlyTables[s.earlyTableIndex]? with
    | some c' =>
      simp only [hEarly, Prod.mk.injEq] at hAlloc
      obtain ⟨-, rfl⟩ := hAlloc
      have hLt := (List.getElem?_eq_some_iff.mp hEarly).1
      refine ⟨?_, ?_, List.suffix_rfl⟩
      · show img.earlyTables.length - (s.earlyTableIndex + 1) = _
        exact Nat.sub_succ' _ _
      · show s.pages.length + _ = _
        have hPos : 1 ≤ earlyLeft img s := Nat.sub_pos_of_lt hLt
        rw [Nat.sub_eq_zero_of_le hPos, Nat.add_zero]
    | none =>
      have hLeft : earlyLeft img s = 0 := Nat.sub_eq_zero_of_le (List.getElem?_eq_none_iff.mp hEarly)
      cases hPages : s.pages with
      | nil =>
        simp only [hEarly, hPages, if_true] at hAlloc
        cases hAlloc
      | cons c' pages =>
        have hNe : c' ≠ 0 := (h.fresh.2 c' (hPages ▸ List.mem_cons_self)).1
        simp only [hEarly, hPages, if_neg hNe, Prod.mk.injEq] at hAlloc
        obtain ⟨-, rfl⟩ := hAlloc
        refine ⟨?_, ?_, hPages ▸ List.suffix_cons c' pages⟩
        · rw [hLeft]
          exact hLeft
        · rw [hLeft, hPages]
          rfl

/-! ### Missing tables -/

def pathsAlong : List Nat → List Nat → Finset (List Nat)
  | _, [] => ∅
  | p, i :: rest => insert (p ++ [i]) (pathsAlong (p ++ [i]) rest)

theorem mem_pathsAlong {p rest q : List Nat} (h : q ∈ pathsAlong p rest) : p.length < q.length ∧ q <+: p ++ rest := by
  induction rest generalizing p with
  | nil => exact absurd h (Finset.notMem_empty q)
  | cons i rest ih =>
    rw [List.append_cons]
    rcases Finset.mem_insert.mp h with rfl | hRest
    · exact ⟨by simp, List.prefix_append _ _⟩
    · obtain ⟨hLength, hPrefix⟩ := ih hRest
      rw [List.length_append, List.length_singleton] at hLength
      exact ⟨by omega, hPrefix⟩

def missing (s : Vmm) (a : UInt64) (paths : Finset (List Nat)) : Finset (List Nat) :=
  paths.filter fun q => follow tableOf s.tables a q = none

theorem missing_congr {paths : Finset (List Nat)}
    (h : ∀ q ∈ paths, follow tableOf s'.tables a q = none ↔ follow tableOf s.tables a q = none) :
    missing s' a paths = missing s a paths := Finset.filter_congr h

theorem reach_iff_follow (ha : s.pgd mm = some a) {q : List Nat} {x : UInt64} :
    s.Reach img (some mm) q x ↔ follow tableOf s.tables a q = some x := by
  unfold Vmm.Reach Reaches
  rw [root, ha]
  rfl

theorem follow_eq_none_iff (ha : s.pgd mm = some a) {q : List Nat} :
    follow tableOf s.tables a q = none ↔ ∀ x, ¬ s.Reach img (some mm) q x := by
  simp only [reach_iff_follow ha, Option.eq_none_iff_forall_ne_some, ne_eq]

theorem Inv.walkLevels_spent {rest p : List Nat} {res : Option UInt64} (h : Inv img s) (ha : s.pgd mm = some a)
    (hReach : s.Reach img (some mm) p t) (hOwn : own (some mm) (p ++ rest))
    (hWalk : Vmm.walkLevels img true rest s t = (res, s')) :
    (res = none ∧ earlyLeft img s + s.pages.length < (missing s a (pathsAlong p rest)).card) ∨
      (res ≠ none ∧ Spent img s s' (missing s a (pathsAlong p rest)).card ∧ ∀ q, own (some mm) q →
        (follow tableOf s'.tables a q = none ↔ follow tableOf s.tables a q = none ∧ q ∉ pathsAlong p rest)) := by
  induction rest generalizing s t p with
  | nil =>
    rw [Vmm.walkLevels, Prod.mk.injEq] at hWalk
    obtain ⟨rfl, rfl⟩ := hWalk
    refine Or.inr ⟨Option.some_ne_none t, Spent.refl img s, fun q _ => ?_⟩
    simp [pathsAlong]
  | cons idx rest ih =>
    rw [List.append_cons] at hOwn
    have hNext : own (some mm) (p ++ [idx]) := own_of_isPrefix own_closed hOwn (List.prefix_append _ _)
    have hApart : p ++ [idx] ∉ pathsAlong (p ++ [idx]) rest :=
      fun hMem => absurd (mem_pathsAlong hMem).1 (Nat.lt_irrefl _)
    rw [Vmm.walkLevels] at hWalk
    cases hValid : pteIsValid (s.tables t idx) with
    | false =>
      have hGone : follow tableOf s.tables a (p ++ [idx]) = none := by
        rw [follow_concat, (reach_iff_follow ha).mp hReach, Option.bind_some, tableOf_of_invalid hValid]
      have hCard : (missing s a (pathsAlong p (idx :: rest))).card =
          (missing s a (pathsAlong (p ++ [idx]) rest)).card + 1 := by
        rw [missing, pathsAlong, Finset.filter_insert, if_pos hGone, Finset.card_insert_of_notMem]
        · rfl
        · exact fun hMem => hApart (Finset.mem_filter.mp hMem).1
      rw [hCard]
      cases hAlloc : s.allocPageTable img with
      | mk new s₁ =>
        rcases h.supply.allocPageTable_spent hAlloc with ⟨rfl, rfl, hEarly, hPages⟩ | ⟨c, rfl, hNew, hSpent⟩
        · simp only [hValid, hAlloc, Bool.not_false, Bool.not_true, if_true, Bool.false_eq_true, if_false,
            Prod.mk.injEq] at hWalk
          refine Or.inl ⟨hWalk.1.symm, ?_⟩
          rw [hEarly, hPages]
          exact Nat.succ_pos _
        · simp only [hValid, hAlloc, Bool.not_false, Bool.not_true, if_true, Bool.false_eq_true,
            if_false] at hWalk
          have hLink := fun {q : List Nat} (hq : own (some mm) q) (x : UInt64) =>
            h.link_reach hNew hNext hReach hValid hq x
          have ha₁ : (s₁.link t idx c).pgd mm = some a := (congrFun hNew.pgd mm).trans ha
          have hFollow : ∀ q, own (some mm) q → (follow tableOf (s₁.link t idx c).tables a q = none ↔
              follow tableOf s.tables a q = none ∧ q ≠ p ++ [idx]) := by
            intro q hq
            rw [@follow_eq_none_iff img _ mm a ha₁ q, @follow_eq_none_iff img _ mm a ha q]
            refine ⟨fun hNone => ⟨fun x hx => hNone x ((hLink hq x).mpr (Or.inl hx)), ?_⟩, fun hOld x hx => ?_⟩
            · rintro rfl
              exact hNone c ((hLink hq c).mpr (Or.inr ⟨rfl, rfl, rfl⟩))
            · rcases (hLink hq x).mp hx with hx' | ⟨-, hHere, -⟩
              · exact hOld.1 x hx'
              · exact hOld.2 hHere
          have hSame : missing (s₁.link t idx c) a (pathsAlong (p ++ [idx]) rest) =
              missing s a (pathsAlong (p ++ [idx]) rest) := by
            refine missing_congr fun q hq => ?_
            rw [hFollow q (own_of_isPrefix own_closed hOwn (mem_pathsAlong hq).2)]
            refine and_iff_left ?_
            rintro rfl
            exact hApart hq
          have hSpent₁ : Spent img s (s₁.link t idx c) 1 := ⟨hSpent.early, hSpent.pages, hSpent.suffix⟩
          have hLinked := (hLink hNext c).mpr (Or.inr ⟨rfl, rfl, rfl⟩)
          rcases ih (h.link hNew hNext hReach hValid) ha₁ hLinked hOwn hWalk with ⟨hRes, hFew⟩ | ⟨hRes, hRest, hEnd⟩
          · rw [hSame] at hFew
            have hEarly := hSpent₁.early
            have hPages := hSpent₁.pages
            exact Or.inl ⟨hRes, by omega⟩
          · rw [hSame] at hRest
            refine Or.inr ⟨hRes, Nat.add_comm 1 _ ▸ hSpent₁.trans hRest, fun q hq => ?_⟩
            rw [hEnd q hq, hFollow q hq, pathsAlong, Finset.mem_insert, not_or, and_assoc]
    | true =>
      have hTable := h.inner mm p idx t hNext hReach hValid
      have hChild := reach_concat hReach (if_pos hTable)
      have hThere : follow tableOf s.tables a (p ++ [idx]) ≠ none := by
        rw [(reach_iff_follow ha).mp hChild]
        exact Option.some_ne_none _
      have hMissing : missing s a (pathsAlong p (idx :: rest)) = missing s a (pathsAlong (p ++ [idx]) rest) := by
        rw [missing, pathsAlong, Finset.filter_insert, if_neg hThere]
        rfl
      rw [hMissing]
      simp only [hValid, hTable, Bool.not_true, Bool.false_eq_true, if_false, if_true] at hWalk
      refine (ih h ha hChild hOwn hWalk).imp id fun hOk => ⟨hOk.1, hOk.2.1, fun q hq => ?_⟩
      rw [hOk.2.2 q hq, pathsAlong, Finset.mem_insert, not_or]
      refine and_congr_right fun hNone => (and_iff_right ?_).symm
      rintro rfl
      exact hThere hNone

/-! ### One page -/

theorem walkLevels_cons (s : Vmm) (t : UInt64) (i : Nat) (rest : List Nat) :
    Vmm.walkLevels img true (i :: rest) s t =
      match Vmm.walkLevels img true [i] s t with
      | (none, s) => (none, s)
      | (some c, s) => Vmm.walkLevels img true rest s c := by
  simp only [Vmm.walkLevels, Bool.not_true, Bool.false_eq_true, if_false]
  split_ifs
  · rcases s.allocPageTable img with ⟨_ | c, s₁⟩
    · rfl
    · rfl
  · rfl
  · rfl

theorem Inv.mapUserPage_eq {vaddr paddr : UInt64} {flags : UInt32} (h : Inv img s) (ha : s.pgd mm = some a)
    (hUser : vaddr < userVmaEnd) :
    s.vmmMapUserPage img mm vaddr paddr flags =
      match Vmm.walkLevels img true (path vaddr) s a with
      | (none, s) => (-1, s)
      | (some l3, s) => (0, s.write l3 (pteIndex vaddr 3) ((paddr &&& pteAddrMask) ||| Vmm.userPteFlags flags)) := by
  have hOwn := own_path_user mm hUser
  have hOwn₂ : own (some mm) ([pteIndex vaddr 0] ++ [pteIndex vaddr 1]) := own_closed _ _ _ hOwn
  have hOwn₁ : own (some mm) ([] ++ [pteIndex vaddr 0]) := own_closed _ [pteIndex vaddr 0] _ hOwn₂
  have hReach₀ : s.Reach img (some mm) [] a := (reach_iff_follow ha).mpr rfl
  unfold Vmm.vmmMapUserPage path
  rw [ha, walkLevels_cons s a]
  dsimp only
  rw [if_neg (UInt64.not_le.mpr hUser), h.walkCreate hOwn₁ hReach₀]
  cases hWalk₁ : Vmm.walkLevels img true [pteIndex vaddr 0] s a with
  | mk res₁ s₁ =>
    obtain ⟨hInv₁, -, hEnd₁⟩ := h.walkLevels hReach₀ hOwn₁ hWalk₁
    cases res₁ with
    | none => rfl
    | some l1 =>
      dsimp only
      rw [walkLevels_cons s₁ l1, hInv₁.walkCreate hOwn₂ (hEnd₁ l1 rfl)]
      cases hWalk₂ : Vmm.walkLevels img true [pteIndex vaddr 1] s₁ l1 with
      | mk res₂ s₂ =>
        obtain ⟨hInv₂, -, hEnd₂⟩ := hInv₁.walkLevels (hEnd₁ l1 rfl) hOwn₂ hWalk₂
        cases res₂ with
        | none => rfl
        | some l2 =>
          have hLast := hInv₂.walkCreate hOwn (hEnd₂ l2 rfl)
          dsimp only
          exact hLast ▸ rfl

def tablePaths (vaddr : UInt64) : Finset (List Nat) := pathsAlong [] (path vaddr)

theorem own_tablePaths {vaddr : UInt64} (hUser : vaddr < userVmaEnd) {q : List Nat} (hq : q ∈ tablePaths vaddr) :
    own (some mm) q := own_of_isPrefix own_closed (own_path_user mm hUser) (mem_pathsAlong hq).2

theorem Inv.mapUserPage_spent {vaddr paddr : UInt64} {flags : UInt32} {ret : Int} (h : Inv img s)
    (ha : s.pgd mm = some a) (hUser : vaddr < userVmaEnd)
    (hMap : s.vmmMapUserPage img mm vaddr paddr flags = (ret, s')) :
    (ret ≠ 0 ∧ earlyLeft img s + s.pages.length < (missing s a (tablePaths vaddr)).card) ∨
      (ret = 0 ∧ Spent img s s' (missing s a (tablePaths vaddr)).card ∧ ∀ q, own (some mm) q →
        (follow tableOf s'.tables a q = none ↔ follow tableOf s.tables a q = none ∧ q ∉ tablePaths vaddr)) := by
  have hOwn := own_path_user mm hUser
  have hReach : s.Reach img (some mm) [] a := (reach_iff_follow ha).mpr rfl
  rw [h.mapUserPage_eq ha hUser] at hMap
  cases hWalk : Vmm.walkLevels img true (path vaddr) s a with
  | mk res s₁ =>
    obtain ⟨hInv, hQuiet, hEnd⟩ := h.walkLevels hReach hOwn hWalk
    rw [hWalk] at hMap
    rcases @Inv.walkLevels_spent img s s₁ mm a a (path vaddr) [] res h ha hReach hOwn hWalk with
      ⟨rfl, hFew⟩ | ⟨hRes, hSpent, hFollow⟩
    · obtain ⟨rfl, -⟩ := Prod.mk.inj hMap
      exact Or.inl ⟨by decide, hFew⟩
    · obtain ⟨l3, rfl⟩ := Option.ne_none_iff_exists'.mp hRes
      obtain ⟨rfl, rfl⟩ := Prod.mk.inj hMap
      have ha₁ : s₁.pgd mm = some a := (congrFun hQuiet.pgd mm).trans ha
      refine Or.inr ⟨rfl, ⟨hSpent.early, hSpent.pages, hSpent.suffix⟩, fun q hq => ?_⟩
      have hWrite := hInv.write_reach hOwn rfl (hEnd l3 rfl) (pteIndex vaddr 3)
        ((paddr &&& pteAddrMask) ||| Vmm.userPteFlags flags) hq
      rw [tablePaths, ← hFollow q hq, @follow_eq_none_iff img _ mm a ha₁ q,
        @follow_eq_none_iff img (s₁.write l3 _ _) mm a ha₁ q]
      exact forall_congr' fun x => not_congr (hWrite x)

end UnixOS.Paging
