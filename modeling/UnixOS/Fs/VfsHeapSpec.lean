import Mathlib.Algebra.Order.BigOperators.Group.Finset
import UnixOS.Fs.PathWalkers
import UnixOS.Fs.VfsHeap

/-! # What a lookup leaves on the heap

No path operation frees a block twice. The VFS inodes that `ramfs_lookup` allocates are never freed, and
most dentries of a longer walk are not either: a call gives back what it took exactly when none of its
lookups finds anything.
-/

namespace UnixOS.Fs

namespace KHeap

variable {n : Nat} {h h' h₁ h₂ : KHeap}

def Bounded (h : KHeap) : Prop := ∀ a, h.next ≤ a → h.blocks a = none

structure Runs (n : Nat) (h h' : KHeap) : Prop where
  next : h.next ≤ h'.next
  old : ∀ a < n, h'.blocks a = h.blocks a
  bounded : h.Bounded → h'.Bounded
  stays : ∀ {a p m b}, h.blocks a = some ⟨.inode p m, b⟩ → h'.blocks a = some ⟨.inode p m, b⟩

theorem Runs.refl (n : Nat) (h : KHeap) : Runs n h h := ⟨le_rfl, fun _ _ => rfl, id, id⟩

theorem Runs.trans (h₁₂ : Runs n h h₁) (h₂₃ : Runs n h₁ h₂) : Runs n h h₂ where
  next := h₁₂.next.trans h₂₃.next
  old a ha := (h₂₃.old a ha).trans (h₁₂.old a ha)
  bounded hb := h₂₃.bounded (h₁₂.bounded hb)
  stays hi := h₂₃.stays (h₁₂.stays hi)

theorem Runs.mono {m : Nat} (hRuns : Runs n h h') (hm : m ≤ n) : Runs m h h' :=
  ⟨hRuns.next, fun a ha => hRuns.old a (ha.trans_le hm), hRuns.bounded, hRuns.stays⟩

/-! ### Bytes in use -/

theorem heapUsed_old (hOld : ∀ a < h.next, h'.blocks a = h.blocks a) :
    h.heapUsed = ∑ a ∈ Finset.range h.next, (h'.blocks a).elim 0 KBlock.bytes := by
  refine Finset.sum_congr rfl fun a ha => ?_
  rw [hOld a (Finset.mem_range.mp ha)]

theorem heapUsed_eq (hb : h.Bounded) (hNext : h.next ≤ h'.next) (hSame : h'.blocks = h.blocks) :
    h'.heapUsed = h.heapUsed := by
  rw [heapUsed, heapUsed, hSame]
  symm
  refine Finset.sum_subset (Finset.range_subset_range.mpr hNext) fun a _ hOut => ?_
  rw [hb a (Nat.le_of_not_lt fun hLt => hOut (Finset.mem_range.mpr hLt)), Option.elim_none]

def Leaks (h h' : KHeap) : Prop :=
  ∃ a p m b, h.next ≤ a ∧ 0 < b ∧ h'.blocks a = some ⟨.inode p m, b⟩

theorem Leaks.stays (hLeak : Leaks h h₁) {m : Nat} (hRuns : Runs m h₁ h₂) : Leaks h h₂ := by
  obtain ⟨a, p, mode, b, ha, hPos, hBlock⟩ := hLeak
  exact ⟨a, p, mode, b, ha, hPos, hRuns.stays hBlock⟩

theorem Leaks.later (hLeak : Leaks h₁ h₂) (hNext : h.next ≤ h₁.next) : Leaks h h₂ := by
  obtain ⟨a, p, mode, b, ha, hBlock⟩ := hLeak
  exact ⟨a, p, mode, b, hNext.trans ha, hBlock⟩

theorem Leaks.heapUsed_lt (hLeak : Leaks h h') (hb : h.Bounded) (hRuns : Runs h.next h h') :
    h.heapUsed < h'.heapUsed := by
  obtain ⟨a, p, m, b, ha, hPos, hBlock⟩ := hLeak
  rw [heapUsed_old hRuns.old, heapUsed]
  have hIn : a ∈ Finset.range h'.next := by
    rw [Finset.mem_range]
    by_contra hOut
    rw [hRuns.bounded hb a (Nat.le_of_not_lt hOut)] at hBlock
    cases hBlock
  refine Finset.sum_lt_sum_of_subset (Finset.range_subset_range.mpr hRuns.next) hIn ?_ ?_
    fun _ _ _ => Nat.zero_le _
  · exact fun hLt => absurd (Finset.mem_range.mp hLt) (Nat.not_lt.mpr ha)
  · rw [hBlock]
    exact hPos

/-! ### Single steps -/

theorem ne_of_bound {a x : Nat} (ha : n ≤ a) (hx : x < n) : x ≠ a := by omega

theorem runs_update {a : Nat} {v : Option KBlock} (ha : n ≤ a)
    (hDentry : ∀ p m b, h.blocks a ≠ some ⟨.inode p m, b⟩) (hv : h.blocks a = none → v = none) :
    Runs n h { h with blocks := Function.update h.blocks a v } where
  next := le_rfl
  old x hx := Function.update_of_ne (ne_of_bound ha hx) ..
  bounded hb x hx := by
    have hNone := hb x hx
    dsimp only
    rw [Function.update_apply]
    split
    case isTrue hSame => exact hv (hSame ▸ hNone)
    case isFalse hOther => exact hNone
  stays {x p m b} hx := by
    have hNe : x ≠ a := by
      rintro rfl
      exact hDentry p m b hx
    exact (Function.update_of_ne hNe ..).trans hx

def drop (h : KHeap) (a : Nat) : KHeap := { h with blocks := Function.update h.blocks a none }

theorem drop_of_ne {a x : Nat} (hx : x ≠ a) : (h.drop a).blocks x = h.blocks x :=
  Function.update_of_ne hx ..

theorem runs_drop {a : Nat} (ha : n ≤ a) (hDentry : ∀ p m b, h.blocks a ≠ some ⟨.inode p m, b⟩) :
    Runs n h (h.drop a) :=
  runs_update ha hDentry fun _ => rfl

theorem runs_setObject {a : Nat} (ha : n ≤ a) (hDentry : ∀ p m b, h.blocks a ≠ some ⟨.inode p m, b⟩)
    (obj : KObject) : Runs n h (h.setObject a obj) := by
  refine runs_update ha hDentry fun hNone => ?_
  rw [hNone, Option.map_none]

def push (h : KHeap) (obj : KObject) (bytes : Nat) : KHeap :=
  ⟨Function.update h.blocks h.next (some ⟨obj, bytes⟩), h.next + 1, h.tick + 1⟩

theorem push_self (h : KHeap) (obj : KObject) (bytes : Nat) :
    (h.push obj bytes).blocks h.next = some ⟨obj, bytes⟩ :=
  Function.update_self ..

theorem push_of_ne {a : Nat} (ha : a ≠ h.next) (obj : KObject) (bytes : Nat) :
    (h.push obj bytes).blocks a = h.blocks a :=
  Function.update_of_ne ha ..

theorem drop_push (hb : h.Bounded) (obj : KObject) (b : Nat) :
    ((h.push obj b).drop h.next).blocks = h.blocks := by
  rw [drop, push]
  dsimp only
  rw [Function.update_idem, Function.update_eq_self_iff, hb _ le_rfl]

theorem setObject_self {a b : Nat} {o : KObject} (hBlock : h.blocks a = some ⟨o, b⟩) (obj : KObject) :
    (h.setObject a obj).blocks a = some ⟨obj, b⟩ := by
  rw [setObject]
  dsimp only
  rw [Function.update_self, hBlock, Option.map_some]

theorem setObject_of_ne {a x : Nat} (hx : x ≠ a) (obj : KObject) :
    (h.setObject a obj).blocks x = h.blocks x :=
  Function.update_of_ne hx ..

theorem runs_push (hn : n ≤ h.next) (hb : h.Bounded) (obj : KObject) (bytes : Nat) :
    Runs n h (h.push obj bytes) where
  next := Nat.le_succ _
  old x hx := Function.update_of_ne (ne_of_bound hn hx) ..
  bounded _ x hx := by
    have hLt : h.next < x := hx
    exact (Function.update_of_ne hLt.ne' ..).trans (hb x hLt.le)
  stays {x p m b} hx := by
    have hNe : x ≠ h.next := by
      rintro rfl
      rw [hb _ le_rfl] at hx
      cases hx
    exact (Function.update_of_ne hNe ..).trans hx

theorem runs_tick (n : Nat) (h : KHeap) (t : Nat) : Runs n h { h with tick := t } :=
  ⟨le_rfl, fun _ _ => rfl, id, id⟩

/-! ### Freeing a chain -/

theorem kfree_eq {a : Nat} {b : KBlock} (hBlock : h.blocks a = some b) : h.kfree a = some (h.drop a) := by
  simp only [kfree, hBlock, drop]

theorem free_root (h : KHeap) : h.vfsFreeDentryChain .root = some h := rfl

theorem free_orphan {a b : Nat} {i : Option Nat} (hBlock : h.blocks a = some ⟨.dentry none i, b⟩) :
    h.vfsFreeDentryChain (.block a) = some (h.drop a) := by
  simp only [vfsFreeDentryChain, freeChainLoop, hBlock, kfree_eq hBlock, Option.bind_eq_bind,
    Option.bind_some]
  rfl

theorem free_below_root {a b : Nat} {i : Option Nat}
    (hBlock : h.blocks a = some ⟨.dentry (some .root) i, b⟩) (ha : a < h.next) :
    h.vfsFreeDentryChain (.block a) = some (h.drop a) := by
  obtain ⟨k, hk⟩ := Nat.exists_eq_succ_of_ne_zero (Nat.ne_zero_of_lt ha)
  simp only [vfsFreeDentryChain, hk, freeChainLoop, hBlock, kfree_eq hBlock, Option.bind_eq_bind,
    Option.bind_some]
  rfl

theorem free_pair {a a' b b' : Nat} {i i' : Option Nat}
    (hBlock : h.blocks a = some ⟨.dentry (some (.block a')) i, b⟩)
    (hParent : h.blocks a' = some ⟨.dentry none i', b'⟩) (hNe : a' ≠ a) (ha : a < h.next) :
    h.vfsFreeDentryChain (.block a) = some ((h.drop a).drop a') := by
  obtain ⟨k, hk⟩ := Nat.exists_eq_succ_of_ne_zero (Nat.ne_zero_of_lt ha)
  have hLeft : (h.drop a).blocks a' = some ⟨.dentry none i', b'⟩ :=
    (Function.update_of_ne hNe ..).trans hParent
  have hOther : DentryPtr.block a' ≠ .block a := fun hSame => hNe (DentryPtr.block.inj hSame)
  simp only [vfsFreeDentryChain, hk, freeChainLoop, hBlock, kfree_eq hBlock, Option.bind_eq_bind,
    Option.bind_some, if_neg hOther, hLeft, kfree_eq hLeft]
  rfl

end KHeap

open KHeap

/-- A dentry that a walk stands at: the root's, or a block above `n` without a parent. -/
def At (s : Ramfs) (n : Nat) (h : KHeap) : DentryPtr → Nat → Prop
  | .root, dir => dir = s.root
  | .block a, dir => n ≤ a ∧ a < h.next ∧ ∃ i b m b', i < h.next ∧
    h.blocks a = some ⟨.dentry none (some i), b⟩ ∧ h.blocks i = some ⟨.inode dir m, b'⟩

variable {grant : Nat → Option Nat} {s : Ramfs} {kids : Nat → List Nat} {n : Nat} {h h' : KHeap}
  {d : DentryPtr} {dir : Nat} {name : List Char}

theorem At.dirOf (hAt : At s n h d dir) : dirOf s h d = some dir := by
  cases d with
  | root =>
    obtain rfl : dir = s.root := hAt
    rfl
  | block a =>
    obtain ⟨-, -, i, b, m, b', -, hBlock, hInode⟩ := hAt
    simp only [Fs.dirOf, inodeOf, hBlock, hInode, Option.map_some]

theorem At.runs (hAt : At s n h d dir) (hRuns : Runs h.next h h') : At s n h' d dir := by
  cases d with
  | root => exact hAt
  | block a =>
    obtain ⟨hn, ha, i, b, m, b', hi, hBlock, hInode⟩ := hAt
    refine ⟨hn, ha.trans_le hRuns.next, i, b, m, b', hi.trans_le hRuns.next, ?_, ?_⟩
    · exact (hRuns.old a ha).trans hBlock
    · exact (hRuns.old i hi).trans hInode

theorem At.free_only (hAt : At s n h d dir) :
    ∃ h', h.vfsFreeDentryChain d = some h' ∧ Runs n h h' ∧ (d = .root → h' = h) ∧
      h'.next = h.next ∧ ∀ x, d ≠ .block x → h'.blocks x = h.blocks x := by
  cases d with
  | root => exact ⟨h, free_root h, Runs.refl n h, fun _ => rfl, rfl, fun _ _ => rfl⟩
  | block a =>
    obtain ⟨hn, -, i, b, m, b', -, hBlock, -⟩ := hAt
    refine ⟨h.drop a, free_orphan hBlock, runs_drop hn ?_, fun hRoot => (nomatch hRoot), rfl, ?_⟩
    · intro p m b hInode
      rw [hBlock] at hInode
      cases hInode
    · exact fun x hx => drop_of_ne fun hSame => hx (congrArg _ hSame.symm)

theorem At.free (hAt : At s n h d dir) :
    ∃ h', h.vfsFreeDentryChain d = some h' ∧ Runs n h h' ∧ (d = .root → h' = h) := by
  obtain ⟨h', hFree, hRuns, hSame, -⟩ := hAt.free_only
  exact ⟨h', hFree, hRuns, hSame⟩

theorem free_child {c b : Nat} {dp : Option DentryPtr} {i : Option Nat} (hn : n ≤ c) (hc : c < h.next)
    (hBlock : h.blocks c = some ⟨.dentry dp i, b⟩)
    (hParent : ∀ d, dp = some d → ∃ dir, At s n h d dir ∧ d ≠ .block c) :
    ∃ h', h.vfsFreeDentryChain (.block c) = some h' ∧ Runs n h h' ∧
      ((dp = none ∨ dp = some .root) → h' = h.drop c) ∧ h'.next = h.next ∧
      ∀ x, x ≠ c → dp ≠ some (.block x) → h'.blocks x = h.blocks x := by
  have hDrop : Runs n h (h.drop c) := by
    refine runs_drop hn fun p m b hInode => ?_
    rw [hBlock] at hInode
    cases hInode
  cases dp with
  | none => exact ⟨_, free_orphan hBlock, hDrop, fun _ => rfl, rfl, fun _ hx _ => drop_of_ne hx⟩
  | some d =>
    obtain ⟨dir, hAt, hNe⟩ := hParent d rfl
    cases d with
    | root => exact ⟨_, free_below_root hBlock hc, hDrop, fun _ => rfl, rfl, fun _ hx _ => drop_of_ne hx⟩
    | block a =>
      obtain ⟨hna, -, j, b', m, b'', -, hOwn, -⟩ := hAt
      have hOther : a ≠ c := fun hSame => hNe (congrArg _ hSame)
      refine ⟨_, free_pair hBlock hOwn hOther hc, hDrop.trans (runs_drop hna ?_), ?_, rfl, ?_⟩
      · intro p m b hInode
        rw [drop_of_ne hOther, hOwn] at hInode
        cases hInode
      · rintro (hNone | hRoot)
        · cases hNone
        · cases hRoot
      · intro x hx hNot
        have hxa : x ≠ a := fun hSame => hNot (by rw [hSame])
        rw [drop_of_ne hxa, drop_of_ne hx]

/-! ### A new dentry and its lookup -/

inductive Looked (grant : Nat → Option Nat) (s : Ramfs) (h : KHeap) (dir : Nat) (dp : Option DentryPtr)
    (name : List Char) (h' : KHeap) : Prop
  | miss (b : Nat) (hBlock : h'.blocks h.next = some ⟨.dentry dp none, b⟩)
      (hInode : h'.inodeOf h.next = none) (hBack : (h'.drop h.next).blocks = h.blocks)
      (hWhy : s.ramfsLookupChild dir name = some none ∨ ∃ t, grant t = none)
  | hit (e : Nat) (m : UInt32) (i b b' : Nat)
      (hBlock : h'.blocks h.next = some ⟨.dentry dp (some i), b⟩)
      (hInode : h'.inodeOf h.next = some (e, m)) (hOwn : h'.blocks i = some ⟨.inode e m, b'⟩)
      (hFresh : h.next ≤ i) (hi : i < h'.next) (hFound : s.ramfsLookupChild dir name = some (some e))
      (hGrant : ∃ t, grant t = some b')

theorem kzalloc_cases (grant : Nat → Option Nat) (h : KHeap) (obj : KObject) :
    kzalloc grant h obj = (none, { h with tick := h.tick + 1 }) ∧ grant h.tick = none ∨
      ∃ b, kzalloc grant h obj = (some h.next, h.push obj b) ∧ grant h.tick = some b := by
  unfold kzalloc
  cases hGrant : grant h.tick with
  | none => exact Or.inl ⟨rfl, rfl⟩
  | some b => exact Or.inr ⟨b, rfl, rfl⟩

theorem looked (grant : Nat → Option Nat) (hTree : s.TreeInv kids) (hLive : s.view.live dir)
    (hb : h.Bounded) (dp : Option DentryPtr) (name : List Char) (b : Nat) :
    ∃ h', ramfsLookup grant s (h.push (.dentry dp none) b) dir h.next dp name = some h' ∧
      Runs h.next h h' ∧ h.next < h'.next ∧ Looked grant s h dir dp name h' := by
  have hPush := runs_push (n := h.next) le_rfl hb (.dentry dp none) b
  have hBlock := push_self h (.dentry dp none) b
  have hBack := drop_push hb (.dentry dp none) b
  have hNone : (h.push (.dentry dp none) b).inodeOf h.next = none := by
    simp only [inodeOf, hBlock]
  obtain ⟨r, hLookup, hFound, -⟩ := hTree.lookup hLive name
  simp only [ramfsLookup, hLookup, Option.bind_eq_bind, Option.bind_some]
  cases r with
  | none => exact ⟨_, rfl, hPush, Nat.lt_succ_self _, .miss b hBlock hNone hBack (Or.inl hLookup)⟩
  | some e =>
    obtain ⟨inode, hInode⟩ := Ramfs.live_iff.mp (hTree.live_of_mem (hFound e rfl).1)
    simp only [hInode, Option.bind_some]
    obtain ⟨hRefused, hGrant⟩ | ⟨b', hGiven, hGrant⟩ :=
      kzalloc_cases grant (h.push (.dentry dp none) b) (.inode e inode.mode)
    · rw [hRefused]
      exact ⟨_, rfl, hPush.trans (runs_tick ..), Nat.lt_succ_self _,
        .miss b hBlock hNone hBack (Or.inr ⟨_, hGrant⟩)⟩
    · rw [hGiven]
      have hNe : h.next ≠ h.next + 1 := (Nat.succ_ne_self _).symm
      have hBefore : ((h.push (.dentry dp none) b).push (.inode e inode.mode) b').blocks h.next =
          some ⟨.dentry dp none, b⟩ := (push_of_ne hNe ..).trans hBlock
      have hDentry := setObject_self hBefore (.dentry dp (some (h.next + 1)))
      have hOwn := (setObject_of_ne (h := (h.push (.dentry dp none) b).push (.inode e inode.mode) b')
        hNe.symm (.dentry dp (some (h.next + 1)))).trans (push_self ..)
      have hPushed := runs_push (n := h.next) (Nat.le_succ _) (hPush.bounded hb) (.inode e inode.mode) b'
      have hSet : Runs h.next _ _ := runs_setObject le_rfl (fun p m b hInode => by
        rw [hBefore] at hInode
        cases hInode) (.dentry dp (some (h.next + 1)))
      refine ⟨_, rfl, (hPush.trans hPushed).trans hSet, ?_, ?_⟩
      · exact Nat.lt_succ_of_lt (Nat.lt_succ_self _)
      · refine .hit e inode.mode (h.next + 1) b b' hDentry ?_ hOwn (Nat.le_succ _)
          (Nat.lt_succ_self _) hLookup ⟨_, hGrant⟩
        simp only [inodeOf, push] at hDentry hOwn ⊢
        simp only [hDentry, hOwn]

/-! ### The walk -/

def Passes (s : Ramfs) (dir : Nat) : List (List Char) → Prop
  | name :: _ :: _ => ∃ e, s.ramfsLookupChild dir name = some (some e)
  | _ => False

theorem Looked.live (hTree : s.TreeInv kids) (hLive : s.view.live dir) {e : Nat}
    (hFound : s.ramfsLookupChild dir name = some (some e)) : s.view.live e := by
  obtain ⟨r, hLookup, hChild, -⟩ := hTree.lookup hLive name
  rw [hFound] at hLookup
  exact hTree.live_of_mem (hChild e (Option.some.inj hLookup).symm).1

theorem walk_spec (hTree : s.TreeInv kids) (hPos : ∀ t b, grant t = some b → 0 < b)
    (names : List (List Char)) (hLive : s.view.live dir) (hb : h.Bounded) (hn : n ≤ h.next)
    (hAt : At s n h d dir) :
    ∃ h' r, heapWalk grant s h d names = some (h', r) ∧ Runs n h h' ∧
      (∀ d' name, r = some (d', name) → ∃ dir', At s n h' d' dir' ∧ s.view.live dir' ∧
        s.walkParent dir names = some (some (dir', name))) ∧
      (Passes s dir names → (∀ t, (grant t).isSome) → Leaks h h') ∧
      (¬ Passes s dir names → d = .root → h'.blocks = h.blocks ∧
        ∀ d' name, r = some (d', name) → d' = .root ∧ names = [name]) := by
  induction names generalizing h d dir with
  | nil =>
    refine ⟨h, none, rfl, Runs.refl n h, ?_, fun hPass => hPass.elim, fun _ _ => ⟨rfl, ?_⟩⟩
    · intro d' name hr
      cases hr
    · intro d' name hr
      cases hr
  | cons name rest ih =>
    cases rest with
    | nil =>
      refine ⟨h, some (d, name), rfl, Runs.refl n h, ?_, fun hPass => hPass.elim, ?_⟩
      · intro d' name' hr
        cases hr
        exact ⟨dir, hAt, hLive, rfl⟩
      · intro _ hRoot
        refine ⟨rfl, fun d' name' hr => ?_⟩
        cases hr
        exact ⟨hRoot, rfl⟩
    | cons name' rest =>
      simp only [heapWalk, hAt.dirOf, Option.bind_eq_bind, Option.bind_some]
      obtain ⟨hRefused, hGrant⟩ | ⟨b, hGiven, -⟩ := kzalloc_cases grant h (.dentry none none)
      · rw [hRefused]
        obtain ⟨h₂, hFree, hRuns, hSame⟩ := (hAt.runs (runs_tick _ h (h.tick + 1))).free
        simp only [hFree, Option.bind_some]
        refine ⟨h₂, none, rfl, (runs_tick n h _).trans hRuns, ?_, ?_, ?_⟩
        · intro d' name hr
          cases hr
        · intro _ hAll
          have hSome := hAll h.tick
          rw [hGrant] at hSome
          cases hSome
        · intro _ hRoot
          rw [hSame hRoot]
          refine ⟨rfl, fun d' name hr => ?_⟩
          cases hr
      · rw [hGiven]
        obtain ⟨h₂, hLookup, hRuns, hNext, hLooked⟩ := looked grant hTree hLive hb none name b
        have hBelow := hRuns.mono hn
        simp only [hLookup, Option.bind_some]
        cases hLooked with
        | miss b hBlock hInode hBack hWhy =>
          simp only [hInode, free_orphan hBlock, Option.bind_some]
          have hDrop : Runs n h₂ (h₂.drop h.next) := by
            refine runs_drop hn fun p m b hBad => ?_
            rw [hBlock] at hBad
            cases hBad
          refine ⟨h₂.drop h.next, none, rfl, hBelow.trans hDrop, ?_, ?_, ?_⟩
          · intro d' name hr
            cases hr
          · rintro ⟨e, hFound⟩ hAll
            obtain hNone | ⟨u, hNo⟩ := hWhy
            · rw [hFound] at hNone
              cases hNone
            · have hSome := hAll u
              rw [hNo] at hSome
              cases hSome
          · intro _ _
            refine ⟨hBack, fun d' name hr => ?_⟩
            cases hr
        | hit e m i b b' hBlock hInode hOwn hFresh hi hFound hGrant =>
          simp only [hInode]
          have hHere : At s n h₂ (.block h.next) e := ⟨hn, hNext, i, b, m, b', hi, hBlock, hOwn⟩
          obtain ⟨h₃, r, hWalk, hRest, hParent, -, -⟩ := ih (Looked.live hTree hLive hFound)
            (hRuns.bounded hb) (hn.trans hRuns.next) hHere
          have hLeak : Leaks h h₂ := by
            obtain ⟨u, hu⟩ := hGrant
            exact ⟨i, e, m, b', hFresh, hPos u b' hu, hOwn⟩
          refine ⟨h₃, r, hWalk, hBelow.trans hRest, ?_, fun _ _ => hLeak.stays hRest, ?_⟩
          · intro d' name' hr
            obtain ⟨dir', hAt', hLive', hPath⟩ := hParent d' name' hr
            refine ⟨dir', hAt', hLive', ?_⟩
            simp only [Ramfs.walkParent, hFound, Option.bind_eq_bind, Option.bind_some, hPath]
          · intro hPass
            exact absurd ⟨e, hFound⟩ hPass

/-! ### Removing and making -/

structure Leaves (grant : Nat → Option Nat) (h h' : KHeap) (clean : Prop) : Prop where
  runs : Runs h.next h h'
  same : clean → h'.blocks = h.blocks
  leaks : ¬ clean → (∀ t, (grant t).isSome) → Leaks h h'

theorem looked_found (hFound : ∃ e, s.ramfsLookupChild dir name = some (some e)) {dp : Option DentryPtr}
    (hLooked : Looked grant s h dir dp name h') (hAll : ∀ t, (grant t).isSome) :
    ∃ e m, h'.inodeOf h.next = some (e, m) := by
  cases hLooked with
  | hit e m i b b' hBlock hInode hOwn hFresh hi hFound hGrant => exact ⟨e, m, hInode⟩
  | miss b hBlock hInode hBack hWhy =>
    obtain ⟨e, hFound⟩ := hFound
    obtain hNone | ⟨u, hNo⟩ := hWhy
    · rw [hFound] at hNone
      cases hNone
    · have hSome := hAll u
      rw [hNo] at hSome
      cases hSome

variable {path : List Char}

theorem heapLookupParent_spec (hTree : s.TreeInv kids) (hPos : ∀ t b, grant t = some b → 0 < b)
    (hb : h.Bounded) (path : List Char) :
    ∃ h' r, heapLookupParent grant s h path = some (h', r) ∧ h'.Bounded ∧
      Leaves grant h h' (¬ Passes s s.root (components path)) ∧
      (∀ d' name, r = some (d', name) → ∃ dir', At s h.next h' d' dir' ∧ s.view.live dir' ∧
        s.vfsLookupParent path = some (some (dir', name)) ∧
        (¬ Passes s s.root (components path) → d' = .root ∧ components path = [name])) := by
  obtain ⟨h', r, hWalk, hRuns, hParent, hLeak, hClean⟩ := walk_spec (d := .root) hTree hPos
    (components path) hTree.rooted.root_live hb le_rfl rfl
  refine ⟨h', r, hWalk, hRuns.bounded hb, ⟨hRuns, fun hNo => (hClean hNo rfl).1, ?_⟩, ?_⟩
  · exact fun hYes => hLeak (not_not.mp hYes)
  · intro d' name hr
    obtain ⟨dir', hAt, hLive, hPath⟩ := hParent d' name hr
    exact ⟨dir', hAt, hLive, hPath, fun hNo => (hClean hNo rfl).2 d' name hr⟩

theorem Leaves.then {clean : Prop} {h₁ h₂ : KHeap} (hLeaves : Leaves grant h h₁ clean)
    (hRuns : Runs h.next h₁ h₂) (hSame : clean → h₂.blocks = h₁.blocks) : Leaves grant h h₂ clean where
  runs := hLeaves.runs.trans hRuns
  same hClean := (hSame hClean).trans (hLeaves.same hClean)
  leaks hNot hAll := (hLeaves.leaks hNot hAll).stays hRuns

theorem remove_spec (hTree : s.TreeInv kids) (hPos : ∀ t b, grant t = some b → 0 < b) (hb : h.Bounded)
    (hMissing : s.target path = some none) (refuse : UInt32 → Option Int)
    (op : Nat → List Char → Option (Ramfs × Int)) :
    ∃ h' ret, heapRemove grant s refuse op h path = some (h', s, ret) ∧
      Leaves grant h h' (¬ Passes s s.root (components path)) := by
  obtain ⟨h₁, r, hWalk, hb₁, hLeaves, hParent⟩ := heapLookupParent_spec hTree hPos hb path
  simp only [heapRemove, hWalk, Option.bind_eq_bind, Option.bind_some]
  cases r with
  | none => exact ⟨h₁, _, rfl, hLeaves⟩
  | some found =>
    obtain ⟨parent, name⟩ := found
    obtain ⟨dir, hAt, hLive, hPath, hRoot⟩ := hParent parent name rfl
    have hLookup : s.ramfsLookupChild dir name = some none := by
      simpa only [Ramfs.target, hPath, Option.bind_eq_bind, Option.bind_some] using hMissing
    dsimp only
    obtain ⟨hRefused, -⟩ | ⟨b, hGiven, -⟩ := kzalloc_cases grant h₁ (.dentry none none)
    · rw [hRefused]
      obtain ⟨h₂, hFree, hRuns, hSame⟩ := (hAt.runs (runs_tick _ h₁ (h₁.tick + 1))).free
      simp only [hFree, Option.bind_some]
      refine ⟨h₂, _, rfl, hLeaves.then ((runs_tick ..).trans hRuns) fun hClean => ?_⟩
      rw [hSame (hRoot hClean).1]
    · rw [hGiven]
      have hn := hLeaves.runs.next
      have hPushed := runs_push (n := h₁.next) le_rfl hb₁ (.dentry none none) b
      simp only [(hAt.runs hPushed).dirOf, Option.bind_some]
      obtain ⟨h₂, hInto, hRuns, hNext, hLooked⟩ := looked grant hTree hLive hb₁ none name b
      simp only [hInto, Option.bind_some]
      cases hLooked with
      | hit e m i b b' hBlock hInode hOwn hFresh hi hFound hGrant =>
        rw [hLookup] at hFound
        cases hFound
      | miss b hBlock hInode hBack hWhy =>
        simp only [hInode, free_orphan hBlock, Option.bind_some]
        have hDrop : Runs h.next h₂ (h₂.drop h₁.next) := by
          refine runs_drop hn fun p m b hBad => ?_
          rw [hBlock] at hBad
          cases hBad
        exact ⟨_, _, rfl, hLeaves.then ((hRuns.mono hn).trans hDrop) fun _ => hBack⟩

theorem At.ne_next (hAt : At s n h d dir) : d ≠ .block h.next := by
  cases d with
  | root => exact fun hSame => by cases hSame
  | block a =>
    obtain ⟨-, ha, -⟩ := hAt
    exact fun hSame => ha.ne (DentryPtr.block.inj hSame)

theorem mkdir_spec (hTree : s.TreeInv kids) (hPos : ∀ t b, grant t = some b → 0 < b) (hb : h.Bounded)
    {c : Nat} (hExists : s.target path = some (some c)) (mode : UInt32) (addr : Nat) :
    ∃ h' ret, heapMkdir grant s h path mode addr = some (h', s, ret) ∧
      Leaves grant h h' (¬ Passes s s.root (components path)) := by
  obtain ⟨h₁, r, hWalk, hb₁, hLeaves, hParent⟩ := heapLookupParent_spec hTree hPos hb path
  simp only [heapMkdir, hWalk, Option.bind_eq_bind, Option.bind_some]
  cases r with
  | none => exact ⟨h₁, _, rfl, hLeaves⟩
  | some found =>
    obtain ⟨parent, name⟩ := found
    obtain ⟨dir, hAt, hLive, hPath, hRoot⟩ := hParent parent name rfl
    have hLookup : s.ramfsLookupChild dir name = some (some c) := by
      simpa only [Ramfs.target, hPath, Option.bind_eq_bind, Option.bind_some] using hExists
    have hName : name ≠ [] := by
      obtain ⟨r, hFound, hr⟩ := hTree.vfsLookupParent path
      rw [hPath] at hFound
      exact (hr dir name (Option.some.inj hFound).symm).2.1
    dsimp only
    obtain ⟨hRefused, -⟩ | ⟨b, hGiven, -⟩ := kzalloc_cases grant h₁ (.dentry (some parent) none)
    · rw [hRefused]
      obtain ⟨h₂, hFree, hRuns, hSame⟩ := (hAt.runs (runs_tick _ h₁ (h₁.tick + 1))).free
      simp only [hFree, Option.bind_some]
      refine ⟨h₂, _, rfl, hLeaves.then ((runs_tick ..).trans hRuns) fun hClean => ?_⟩
      rw [hSame (hRoot hClean).1]
    · rw [hGiven]
      have hn := hLeaves.runs.next
      have hPushed := runs_push (n := h₁.next) le_rfl hb₁ (.dentry (some parent) none) b
      have hAt₂ := hAt.runs hPushed
      have hMade : s.ramfsMkdir dir name mode addr = some (s, -eExist) := by
        simp only [Ramfs.ramfsMkdir, Ramfs.ramfsMake, if_neg hName, hLookup, Option.bind_eq_bind,
          Option.bind_some]
        rfl
      have hNot : -eExist ≠ 0 := by decide
      simp only [hAt₂.dirOf, hMade, mkdirInode, if_neg hNot, Option.bind_some]
      obtain ⟨h₃, hFree, hRuns, hSame, -⟩ := free_child (s := s) hn (Nat.lt_succ_self h₁.next)
        (push_self h₁ (.dentry (some parent) none) b) fun d hd => by
          cases hd
          exact ⟨dir, hAt₂, hAt.ne_next⟩
      simp only [hFree, Option.bind_some]
      refine ⟨h₃, _, rfl, hLeaves.then ((hPushed.mono hn).trans hRuns) fun hClean => ?_⟩
      rw [hSame (Or.inr (congrArg some (hRoot hClean).1)), drop_push hb₁]

/-! ### Opening and closing -/

def Opened (n : Nat) (h : KHeap) (f : Nat) : Prop :=
  ∃ c i b b', n ≤ c ∧ c < h.next ∧ f ≠ c ∧ n ≤ f ∧
    h.blocks c = some ⟨.dentry (some .root) i, b⟩ ∧ h.blocks f = some ⟨.file (.block c), b'⟩

theorem openChild_spec (hTree : s.TreeInv kids) (hPos : ∀ t b, grant t = some b → 0 < b) (hb : h.Bounded)
    (hn : n ≤ h.next) (hAt : At s n h d dir) (hLive : s.view.live dir) (name : List Char) :
    ∃ h' r, openChild grant s h d name = some (h', r) ∧ Runs n h h' ∧
      (∀ f, r = some f → Opened n h' f) ∧
      ((∃ e, s.ramfsLookupChild dir name = some (some e)) → (∀ t, (grant t).isSome) → Leaks h h') := by
  unfold openChild
  obtain ⟨hRefused, hGrant⟩ | ⟨b, hGiven, -⟩ := kzalloc_cases grant h (.dentry (some d) none)
  · rw [hRefused]
    obtain ⟨h₂, hFree, hRuns, -⟩ := (hAt.runs (runs_tick _ h (h.tick + 1))).free
    simp only [hFree, Option.bind_eq_bind, Option.bind_some]
    refine ⟨h₂, none, rfl, (runs_tick ..).trans hRuns, fun f hf => (nomatch hf), fun _ hAll => ?_⟩
    have hSome := hAll h.tick
    rw [hGrant] at hSome
    cases hSome
  · rw [hGiven]
    have hPushed := runs_push (n := h.next) le_rfl hb (.dentry (some d) none) b
    obtain ⟨h₂, hInto, hRuns, hNext, hLooked⟩ := looked grant hTree hLive hb (some d) name b
    simp only [(hAt.runs hPushed).dirOf, hInto, Option.bind_eq_bind, Option.bind_some]
    have hParent : ∀ h', Runs h.next h h' → ∀ d', some d = some d' →
        ∃ dir, At s n h' d' dir ∧ d' ≠ .block h.next := by
      intro h' hTo d' hd
      cases hd
      exact ⟨dir, hAt.runs hTo, hAt.ne_next⟩
    cases hLooked with
    | miss b hBlock hInode hBack hWhy =>
      obtain ⟨h₃, hFree, hRest, -⟩ := free_child hn hNext hBlock (hParent h₂ hRuns)
      simp only [hInode, hFree, Option.bind_some]
      refine ⟨h₃, none, rfl, (hRuns.mono hn).trans hRest, fun f hf => (nomatch hf), fun hFound hAll => ?_⟩
      obtain ⟨e, m, hSome⟩ := looked_found hFound (.miss b hBlock hInode hBack hWhy) hAll
      rw [hInode] at hSome
      cases hSome
    | hit e m i b b' hBlock hInode hOwn hFresh hi hFound hGrant =>
      have hLeak : Leaks h h₂ := by
        obtain ⟨u, hu⟩ := hGrant
        exact ⟨i, e, m, b', hFresh, hPos u b' hu, hOwn⟩
      simp only [hInode]
      obtain ⟨hNoFile, -⟩ | ⟨bf, hFile, -⟩ := kzalloc_cases grant h₂ (.file (.block h.next))
      · rw [hNoFile]
        have hTick := runs_tick h.next h₂ (h₂.tick + 1)
        obtain ⟨h₃, hFree, hRest, -⟩ := free_child (h := { h₂ with tick := h₂.tick + 1 }) hn hNext hBlock
          (hParent _ (hRuns.trans hTick))
        simp only [hFree, Option.bind_some]
        have hAfter := (hTick.mono hn).trans hRest
        exact ⟨h₃, none, rfl, (hRuns.mono hn).trans hAfter, fun f hf => (nomatch hf),
          fun _ _ => hLeak.stays hAfter⟩
      · rw [hFile]
        have hPush := runs_push (n := h.next) hRuns.next (hRuns.bounded hb) (.file (.block h.next)) bf
        have hNe : h.next ≠ h₂.next := hNext.ne
        have hDentry : (h₂.push (.file (.block h.next)) bf).blocks h.next = _ :=
          (push_of_ne hNe ..).trans hBlock
        have hFileBlock := push_self h₂ (.file (.block h.next)) bf
        dsimp only
        split
        case isTrue hRoot =>
          subst hRoot
          refine ⟨_, _, rfl, (hRuns.trans hPush).mono hn, fun f hf => ?_, fun _ _ => hLeak.stays hPush⟩
          cases hf
          exact ⟨h.next, _, _, _, hn, Nat.lt_succ_of_lt hNext, hNe.symm, hn.trans hRuns.next, hDentry,
            hFileBlock⟩
        case isFalse hOther =>
          simp only [hDentry]
          have hSet : Runs h.next _ _ := runs_setObject le_rfl (fun p m b hBad => by
            rw [hDentry] at hBad
            cases hBad) (.dentry (some .root) (some i))
          have hTo := (hRuns.trans hPush).trans hSet
          obtain ⟨h₄, hFree, hRest, -, hSameNext, hOnly⟩ := (hAt.runs hTo).free_only
          simp only [hFree, Option.bind_some]
          have hAfter : Runs n h₂ h₄ := ((hPush.trans hSet).mono hn).trans hRest
          have hChild := (hOnly h.next hAt.ne_next).trans
            (setObject_self hDentry (.dentry (some .root) (some i)))
          have hFileKept : h₄.blocks h₂.next = some ⟨.file (.block h.next), bf⟩ := by
            rw [hOnly h₂.next ?_, setObject_of_ne hNe.symm, hFileBlock]
            rintro rfl
            obtain ⟨-, ha, -⟩ := hAt
            exact absurd ha (Nat.not_lt.mpr hRuns.next)
          refine ⟨h₄, _, rfl, (hRuns.mono hn).trans hAfter, fun f hf => ?_,
            fun _ _ => hLeak.stays hAfter⟩
          cases hf
          have hBelow : h.next < h₄.next := hSameNext ▸ Nat.lt_succ_of_lt hNext
          exact ⟨h.next, _, _, _, hn, hBelow, hNe.symm, hn.trans hRuns.next, hChild, hFileKept⟩

theorem close_spec {f : Nat} (hOpened : Opened n h f) :
    ∃ h', heapClose h f = some h' ∧ Runs n h h' := by
  obtain ⟨c, i, b, b', hc, hcNext, hNe, hf, hDentry, hFile⟩ := hOpened
  have hFree := free_below_root hDentry hcNext
  have hLeft : (h.drop c).blocks f = some ⟨.file (.block c), b'⟩ := (drop_of_ne hNe).trans hFile
  simp only [heapClose, hFile, hFree, Option.bind_eq_bind, Option.bind_some, kfree_eq hLeft]
  refine ⟨_, rfl, (runs_drop hc ?_).trans (runs_drop hf ?_)⟩
  · intro p m b hBad
    rw [hDentry] at hBad
    cases hBad
  · intro p m b hBad
    rw [hLeft] at hBad
    cases hBad

end UnixOS.Fs
