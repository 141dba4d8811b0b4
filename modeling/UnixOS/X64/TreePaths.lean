import UnixOS.X64.Vfs

/-! # Paths and parents

The tree is kept twice in `kernel/fs/vfs.c`: as full paths, and as parent indices, which `vfs_readdir` goes by. The root
is created with itself as its parent, and so it is listed in itself.
-/

namespace UnixOS.X64Vfs

def DirectlyBelow (d path : List Char) : Prop :=
  ∃ name, name ≠ [] ∧ '/' ∉ name ∧ path = (if d = ['/'] then ['/'] else d ++ ['/']) ++ name

def direntOf (node : Inode) : Dirent := ⟨strCpy node.name maxName, node.isDir, node.size⟩

structure TreeAgrees (s : State) : Prop where
  distinct : ∀ i j, i < s.inodeCount → j < s.inodeCount → (s.inodes i).path = (s.inodes j).path → i = j
  parents : ∀ i < s.inodeCount, i ≠ 0 → ∃ p < s.inodeCount, (s.inodes i).parent = p ∧ (s.inodes p).isDir = true ∧
    DirectlyBelow (s.inodes p).path (s.inodes i).path
  lists : ∀ d dir, findInode s d = some dir → (s.inodes dir).isDir = true → ∀ n, s.inodeCount ≤ n →
    ∃ entries, vfsReaddir s d n = some entries ∧
      ∀ e, e ∈ entries ↔ ∃ i < s.inodeCount, DirectlyBelow d (s.inodes i).path ∧ e = direntOf (s.inodes i)

def RenamesBelow (s : State) : Call → Prop
  | .rename d e => ∀ dir, findInode s d = some dir → (s.inodes dir).isDir = true → (vfsRename s d e).2 = 0 →
    ∀ p i, findInode s (d ++ '/' :: p) = some i →
      findInode (vfsRename s d e).1 (e ++ '/' :: p) = some i ∧ findInode (vfsRename s d e).1 (d ++ '/' :: p) = none
  | _ => True

def AgreesAlong (s : State) : List Call → Prop
  | [] => TreeAgrees s
  | c :: calls => TreeAgrees s ∧ RenamesBelow s c ∧ AgreesAlong (c.next s) calls

theorem readdir_root : vfsReaddir State.init ['/'] 1 = some [direntOf (State.init.inodes 0)] := rfl

theorem not_treeAgrees_init : ¬ TreeAgrees State.init := by
  intro h
  have hOne : State.init.inodeCount = 1 := rfl
  obtain ⟨entries, hList, hEntries⟩ := h.lists ['/'] 0 (by decide) (by decide) 1 (Nat.le_of_eq hOne)
  rw [readdir_root] at hList
  obtain rfl := Option.some.inj hList
  obtain ⟨i, hi, ⟨name, hName, -, hPath⟩, -⟩ := (hEntries _).mp List.mem_cons_self
  obtain rfl : i = 0 := by omega
  rw [if_pos rfl, show (State.init.inodes 0).path = ['/'] ++ [] from rfl] at hPath
  exact hName (List.append_cancel_left hPath).symm

/-- In no run do paths and parents agree all along. -/
theorem tree_never_agrees (calls : List Call) : ¬ AgreesAlong State.init calls := by
  intro h
  cases calls with
  | nil => exact not_treeAgrees_init h
  | cons c calls => exact not_treeAgrees_init h.1

theorem root_listed_in_itself : ¬ AgreesAlong State.init [.mkdir ['/', 'a']] := fun h => not_treeAgrees_init h.1

/-! ### The rest of the tree -/

/-- A rename of a directory takes along what is below it exactly if there is nothing. -/
theorem renamesBelow_iff {s : State} {d e : List Char} : RenamesBelow s (.rename d e) ↔
    ∀ dir, findInode s d = some dir → (s.inodes dir).isDir = true → (vfsRename s d e).2 = 0 →
      ∀ p, findInode s (d ++ '/' :: p) = none := by
  constructor
  · intro h dir hFound hDir hOk p
    cases hBelow : findInode s (d ++ '/' :: p) with
    | none => rfl
    | some i =>
      obtain ⟨-, hGone⟩ := h dir hFound hDir hOk p i hBelow
      obtain ⟨-, hNeg⟩ | ⟨idx, node, hIdx, -, -, -, hEq⟩ := vfsRename_cases s d e
      · omega
      · obtain ⟨hLt, hPath, -⟩ := findInode_eq_some_iff.mp hBelow
        have hNe : i ≠ idx := by
          rintro rfl
          have hLength := congrArg List.length (hPath.symm.trans (findInode_eq_some_iff.mp hIdx).2.1)
          rw [List.length_append, List.length_cons] at hLength
          omega
        rw [hEq] at hGone
        refine absurd ?_ (findInode_eq_none_iff.mp hGone i hLt)
        rw [setInode_other s node hNe, hPath]
  · intro h dir hFound hDir hOk p i hBelow
    rw [h dir hFound hDir hOk p] at hBelow
    cases hBelow

/-- An inode that is made where its parent is missing gets no parent at all. -/
theorem create_without_parent {s : State} {path : List Char} {isDir : Bool} (hOk : 0 ≤ (createInode s path isDir).2)
    (hRoot : s.inodeCount ≠ 0) (hMissing : findInode (createInode s path isDir).1 (getParentPath path) = none) :
    ¬ TreeAgrees (createInode s path isDir).1 := by
  obtain ⟨-, hNeg, -⟩ | ⟨node, -, -, -, hParent, hEq⟩ := createInode_cases s path isDir
  · omega
  · rw [hEq] at hMissing ⊢
    intro h
    obtain ⟨p, -, hAt, -⟩ := h.parents s.inodeCount (Nat.lt_succ_self _) hRoot
    have hNode : (s.add node).inodes s.inodeCount = node := setInode_self s _ node
    rw [hNode, hParent, indexOf, hMissing, Option.elim_none] at hAt
    omega

end UnixOS.X64Vfs
