import Mathlib.Data.Finset.Card
import UnixOS.Fs.PathWalkers
import UnixOS.Fs.RamfsFile

/-! # The node pool of the compatibility layer

`kernel/fs/vfs_compat.c` hands out nodes from a static pool. A lookup takes the first free node and gives it
back only if the path leads nowhere. The name of a node is a buffer: a shorter path leaves the end of a
longer one in it.
-/

namespace UnixOS.Fs

open ByteMemory

def maxVfsNodes : Nat := 32

/-- A `vfs_node_t`, with the paths that were copied into its name so far, the last one first. -/
structure VfsNode where
  name : Mem
  size : Nat
  isDir : Bool
  internal : Option Nat
  copied : List (List Char)

structure NodePool where
  nodePool : Nat → VfsNode
  nodeUsed : Nat → Bool

def nodePoolInit : NodePool := ⟨fun _ => ⟨fun _ => 0, 0, false, none, []⟩, fun _ => false⟩

namespace NodePool

variable (p : NodePool)

def setNode (i : Nat) (node : VfsNode) : NodePool := { p with nodePool := Function.update p.nodePool i node }

def allocNode : Option (NodePool × Nat) :=
  match (List.range maxVfsNodes).find? fun i => !p.nodeUsed i with
  | none => none
  | some i =>
    let node := p.nodePool i
    some (⟨Function.update p.nodePool i ⟨Function.update node.name 0 0, 0, false, none, node.copied⟩,
      Function.update p.nodeUsed i true⟩, i)

def freeNode (i : Nat) : NodePool := { p with nodeUsed := Function.update p.nodeUsed i false }

end NodePool

def strcpySafe (dst : Mem) (src : List Char) (max : Nat) : Mem :=
  let n := min src.length (max - 1)
  Function.update (fill dst 0 n fun i => (src.getD i ' ').toUInt8) n 0

/-- The node, or `NULL`. -/
def vfsLookup (s : Ramfs) (p : NodePool) (path : List Char) : Option (NodePool × Option Nat) :=
  if path = [] then some (p, none)
  else
    match p.allocNode with
    | none => some (p, none)
    | some (p, i) =>
      let name := strcpySafe (p.nodePool i).name path 256
      let copied := path :: (p.nodePool i).copied
      if path = ['/'] then some (p.setNode i ⟨name, 0, true, none, copied⟩, some i)
      else do
        match ← s.ramfsLookupPathInfo path with
        | some info => return (p.setNode i ⟨name, info.outSize, info.outIsDir, info.outData, copied⟩, some i)
        | none => return ((p.setNode i ⟨name, 0, false, none, copied⟩).freeNode i, none)

def toInt32 (n : Nat) : Int := Int.bmod n (2 ^ 32)

/-- The return value, and what is stored in the buffer. -/
def vfsReadCompat (s : Ramfs) (node : VfsNode) (size offset : Nat) : Option (Int × List UInt8) :=
  match node.internal with
  | none => some (0, [])
  | some addr =>
    if 0 < node.size then do
      let rnode ← s.inodes addr
      match rnode.data with
      | none => return (0, [])
      | some data =>
        let avail := if offset < rnode.size then rnode.size - offset else 0
        let toRead := if size < avail then size else avail
        return (toInt32 toRead, (List.range toRead).map fun i => data (offset + i))
    else some (0, [])

/-- What a name buffer holds after these paths were copied into it: the last path and its terminator, and
behind them what is left of the paths before. -/
def leftInName : List (List Char) → Mem
  | [], _ => 0
  | path :: older, j =>
    let n := min path.length 255
    if j < n then (path.getD j ' ').toUInt8 else if j = n then 0 else leftInName older j

/-! ### What the calls do to the pool -/

namespace NodePool

def inUse (p : NodePool) : Finset Nat := (Finset.range maxVfsNodes).filter fun i => p.nodeUsed i = true

variable {p p' : NodePool} {i : Nat}

theorem card_inUse_le (p : NodePool) : p.inUse.card ≤ maxVfsNodes := by
  have hLe := Finset.card_filter_le (Finset.range maxVfsNodes) fun i => p.nodeUsed i = true
  rwa [Finset.card_range] at hLe

@[simp] theorem mem_inUse : i ∈ p.inUse ↔ i < maxVfsNodes ∧ p.nodeUsed i = true := by
  simp [inUse]

@[simp] theorem inUse_setNode (node : VfsNode) : (p.setNode i node).inUse = p.inUse := rfl

theorem allocNode_eq_none : p.allocNode = none ↔ p.inUse.card = maxVfsNodes := by
  have hFull : p.inUse.card = maxVfsNodes ↔ ∀ j < maxVfsNodes, p.nodeUsed j = true := by
    have hCard := Finset.card_filter_eq_iff (s := Finset.range maxVfsNodes)
      (p := fun i => p.nodeUsed i = true)
    rw [Finset.card_range] at hCard
    simpa only [inUse, Finset.mem_range] using hCard
  rw [hFull]
  unfold allocNode
  cases hFind : (List.range maxVfsNodes).find? fun i => !p.nodeUsed i with
  | none =>
    have hAll := List.find?_eq_none.mp hFind
    simpa using hAll
  | some j =>
    have hFree : p.nodeUsed j = false := by simpa using List.find?_some hFind
    have hLt : j < maxVfsNodes := List.mem_range.mp (List.mem_of_find?_eq_some hFind)
    simp only [reduceCtorEq, false_iff]
    intro hAll
    simp [hAll j hLt] at hFree

theorem allocNode_some (h : p.allocNode = some (p', i)) :
    i < maxVfsNodes ∧ i ∉ p.inUse ∧ p'.inUse = insert i p.inUse ∧
      p'.nodePool i = ⟨Function.update (p.nodePool i).name 0 0, 0, false, none, (p.nodePool i).copied⟩ ∧
      ∀ j ≠ i, p'.nodePool j = p.nodePool j := by
  unfold allocNode at h
  cases hFind : (List.range maxVfsNodes).find? fun i => !p.nodeUsed i with
  | none => simp [hFind] at h
  | some j =>
    rw [hFind] at h
    obtain ⟨rfl, rfl⟩ := Prod.mk.inj (Option.some.inj h)
    have hFree : p.nodeUsed j = false := by simpa using List.find?_some hFind
    have hLt : j < maxVfsNodes := List.mem_range.mp (List.mem_of_find?_eq_some hFind)
    refine ⟨hLt, by simp [hFree], ?_, by simp, fun k hk => by simp [hk]⟩
    ext k
    by_cases hk : k = j
    · simp [hk, hLt]
    · simp [hk]

theorem inUse_freeNode (h : p'.inUse = insert i p.inUse) (hi : i ∉ p.inUse) :
    (p'.freeNode i).inUse = p.inUse := by
  have hErase : (p'.freeNode i).inUse = p'.inUse.erase i := by
    ext k
    by_cases hk : k = i
    · simp [freeNode, hk]
    · simp [freeNode, hk]
  rw [hErase, h, Finset.erase_insert hi]

end NodePool

theorem strcpySafe_leftInName {path : List Char} {older : List (List Char)} {m : Mem} (hp : path ≠ [])
    (h : ∀ j, m j = leftInName older j) (j : Nat) :
    strcpySafe (Function.update m 0 0) path 256 j = leftInName (path :: older) j := by
  have hLength := List.length_pos_iff.mpr hp
  unfold strcpySafe leftInName
  dsimp only
  by_cases hEnd : j = min path.length 255
  · rw [if_neg (by omega), if_pos hEnd, hEnd]
    exact Function.update_self _ _ _
  · rw [Function.update_of_ne hEnd]
    by_cases hIn : j < min path.length 255
    · have hFill := fill_inside (m := Function.update m 0 0) (a := 0)
        (f := fun i => (path.getD i ' ').toUInt8) hIn
      rw [Nat.zero_add] at hFill
      rw [if_pos hIn, hFill]
    · rw [if_neg hIn, if_neg hEnd, fill_outside (by omega), Function.update_of_ne (by omega), h j]

/-! ### Lookups in a tree of files -/

namespace Ramfs

variable {s : Ramfs} {kids : Nat → List Nat} {path : List Char} {a : Nat} {i : RamfsInode}

structure FileTree (s : Ramfs) (kids : Nat → List Nat) : Prop where
  tree : s.TreeInv kids
  root : s.IsDir s.root
  names : ∀ {a i}, s.inodes a = some i → i.name.length ≤ nameMax
  sound : ∀ {a i}, s.inodes a = some i → i.Sound

structure FileAt (s : Ramfs) (path : List Char) (a : Nat) (i : RamfsInode) : Prop where
  resolve : s.resolve s.root (pathComponents path) = some a
  inode : s.inodes a = some i
  file : sIsDir i.mode = false

theorem FileTree.length_le (h : s.FileTree kids) {b : Nat} (hb : s.view.live b) {names : List (List Char)}
    (hResolve : s.resolve b names = some a) : ∀ c ∈ names, c.length ≤ nameMax := by
  induction names generalizing b with
  | nil => simp
  | cons name names ih =>
    obtain ⟨c, hc, hRest⟩ := Option.bind_eq_some_iff.mp hResolve
    obtain ⟨r, hLookup, hFound, -⟩ := h.tree.lookup hb name
    rw [hLookup, Option.join_some] at hc
    obtain ⟨hMem, hName⟩ := hFound c hc
    have hLive := h.tree.live_of_mem hMem
    obtain ⟨j, hj⟩ := live_iff.mp hLive
    have hFits : name.length ≤ nameMax := by
      have hSame : j.name = name := by simpa [view, hj] using hName
      exact hSame ▸ h.names hj
    intro d hd
    rcases List.mem_cons.mp hd with rfl | hd
    · exact hFits
    · exact ih hLive hRest d hd

theorem TreeInv.lookup_empty (h : s.TreeInv kids) {b : Nat} (hb : s.view.live b) :
    s.ramfsLookupChild b [] = some none := by
  obtain ⟨r, hLookup, hFound, -⟩ := h.lookup hb []
  cases r with
  | none => exact hLookup
  | some c =>
    obtain ⟨hMem, hName⟩ := hFound c rfl
    exact absurd hName (h.named hMem)

theorem FileTree.lookup_file (h : s.FileTree kids) (hFile : s.FileAt path a i)
    (hSlashes : ¬ ['/', '/'] <+: path) :
    s.ramfsLookupPathInfo path = some (some ⟨i.size, false, some a⟩) := by
  obtain ⟨hRel, hSame⟩ := Vfs.relative_skipSlash hSlashes
  have hRoot := h.tree.rooted.root_live
  have hFits := h.length_le hRoot hFile.resolve
  have hTokens : ramfsTokens (skipSlash path).length (skipSlash path) = pathComponents path := by
    rw [ramfsTokens_eq le_rfl hRel, hSame]
    rwa [hSame]
  have hNonempty : skipSlash path ≠ [] := by
    intro hNil
    have hResolve := hFile.resolve
    rw [← hSame, hNil] at hResolve
    obtain ⟨m, hMode, hDir⟩ := h.root
    obtain rfl : s.root = a := Option.some.inj hResolve
    have hEq : i.mode = m := by simpa [view, hFile.inode] using hMode
    rw [← hEq, hFile.file] at hDir
    cases hDir
  rw [Ramfs.ramfsLookupPathInfo, if_neg hNonempty, h.tree.lookupLoop hRoot le_rfl, hTokens, hFile.resolve]
  simp [hFile.inode, hFile.file]

theorem TreeInv.lookup_slashes (h : s.TreeInv kids) (hSlashes : ['/', '/'] <+: path) :
    s.ramfsLookupPathInfo path = some none := by
  obtain ⟨q, rfl⟩ := hSlashes
  have hEmpty := h.lookup_empty h.rooted.root_live
  rw [Ramfs.ramfsLookupPathInfo]
  simp [skipSlash, Ramfs.lookupLoop, firstName, hEmpty]

theorem TreeInv.lookup_returns (h : s.TreeInv kids) (path : List Char) :
    ∃ r, s.ramfsLookupPathInfo path = some r := by
  have hMap := h.ramfsLookupPathInfo path
  cases hInfo : s.ramfsLookupPathInfo path with
  | none => simp [hInfo] at hMap
  | some r => exact ⟨r, rfl⟩

end Ramfs

namespace NodePool

def Named (p : NodePool) : Prop := ∀ i j, (p.nodePool i).name j = leftInName (p.nodePool i).copied j

theorem named_init : nodePoolInit.Named := fun _ _ => rfl

end NodePool

inductive LookedUp (s : Ramfs) (p : NodePool) (path : List Char) (p' : NodePool) : Option Nat → Prop
  | missed (hUse : p'.inUse = p.inUse)
      (hWhy : path = [] ∨ p.inUse.card = maxVfsNodes ∨ s.ramfsLookupPathInfo path = some none) :
      LookedUp s p path p' none
  | found {i : Nat} (info : PathInfo) (hFree : i ∉ p.inUse) (hUse : p'.inUse = insert i p.inUse)
      (hPath : path ≠ []) (hInfo : s.ramfsLookupPathInfo path = some (some info))
      (hSize : (p'.nodePool i).size = info.outSize) (hInternal : (p'.nodePool i).internal = info.outData) :
      LookedUp s p path p' (some i)

theorem vfsLookup_spec {s : Ramfs} {kids : Nat → List Nat} (h : s.TreeInv kids) {p : NodePool}
    (hNamed : p.Named) (path : List Char) : ∃ p' r, vfsLookup s p path = some (p', r) ∧ p'.Named ∧
      (∀ j ∈ p.inUse, p'.nodePool j = p.nodePool j) ∧ LookedUp s p path p' r := by
  unfold vfsLookup
  split
  case isTrue hp => exact ⟨p, none, rfl, hNamed, fun _ _ => rfl, .missed rfl (.inl hp)⟩
  case isFalse hp =>
    cases hAlloc : p.allocNode with
    | none =>
      have hFull := NodePool.allocNode_eq_none.mp hAlloc
      exact ⟨p, none, rfl, hNamed, fun _ _ => rfl, .missed rfl (.inr (.inl hFull))⟩
    | some r =>
      obtain ⟨p₁, i⟩ := r
      obtain ⟨-, hFree, hUse, hNode, hOther⟩ := NodePool.allocNode_some hAlloc
      have hName : ∀ j, strcpySafe (p₁.nodePool i).name path 256 j =
          leftInName (path :: (p₁.nodePool i).copied) j := by
        rw [hNode]
        exact strcpySafe_leftInName hp (hNamed i)
      -- the pool with the path in the name of the new node
      have hSet : ∀ size isDir internal, (p₁.setNode i ⟨strcpySafe (p₁.nodePool i).name path 256, size,
          isDir, internal, path :: (p₁.nodePool i).copied⟩).Named := by
        intro size isDir internal k j
        by_cases hk : k = i
        · subst hk
          simpa [NodePool.setNode] using hName j
        · simpa [NodePool.setNode, hk, hOther k hk] using hNamed k j
      have hKept : ∀ node, ∀ j ∈ p.inUse, (p₁.setNode i node).nodePool j = p.nodePool j := by
        intro node j hj
        have hne : j ≠ i := fun hEq => hFree (hEq ▸ hj)
        simp [NodePool.setNode, hne, hOther j hne]
      dsimp only
      split
      case isTrue hSlash =>
        subst hSlash
        exact ⟨_, _, rfl, hSet _ _ _, hKept _, .found ⟨0, true, none⟩ hFree hUse hp rfl
          (by simp [NodePool.setNode]) (by simp [NodePool.setNode])⟩
      case isFalse hSlash =>
        obtain ⟨r, hInfo⟩ := h.lookup_returns path
        rw [hInfo]
        cases r with
        | none =>
          exact ⟨_, _, rfl, hSet 0 false none, hKept _,
            .missed (NodePool.inUse_freeNode hUse hFree) (.inr (.inr hInfo))⟩
        | some info =>
          exact ⟨_, _, rfl, hSet _ _ _, hKept _, .found info hFree hUse hp hInfo
            (by simp [NodePool.setNode]) (by simp [NodePool.setNode])⟩

end UnixOS.Fs
