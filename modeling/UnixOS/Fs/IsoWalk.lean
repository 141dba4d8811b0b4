import Mathlib.Data.Finite.Prod
import UnixOS.Fs.IsoRecords
import UnixOS.Fs.Vfs
import UnixOS.Lib.DepthFirst

/-! # Walking the directories of an ISO volume

`iso9660_build_tree_recursive` and `iso_copy_dir_recursive` of `kernel/fs/iso9660.c`. Both read a directory, go
over its records and call themselves for each record of a directory; they differ in what is done with a record.
What the allocator and the VFS answer is up to the kernel. A read outside the buffer of a directory has no
result. Frees and yields are left out.
-/

namespace UnixOS.Fs.Iso9660

open DepthFirst Relation

/-- The calls the two functions make, with the state they depend on. A granted block comes with what it holds. -/
structure Kernel (σ : Type) where
  kmalloc : σ → Nat → Option (Nat → UInt8) × σ
  vfsMkdir : σ → List Char → σ
  vfsUnlink : σ → List Char → σ
  vfsOpen : σ → List Char → Bool × σ
  vfsWrite : σ → List UInt8 → Int × σ

/-! ### The walk -/

/-- What is done with the records of a directory. `ρ` is the place of a directory in what is made, `α` what is
made of its records. -/
structure Walker (σ ρ α : Type) where
  kmalloc : σ → Nat → Option (Nat → UInt8) × σ
  accepts : ρ → Bool
  empty : α
  enter : σ → ρ → DirRecord → Option ρ × σ
  leave : α → DirRecord → α → α
  file : σ → ρ → DirRecord → Option (α → α) × σ

structure Outcome (σ α : Type) where
  ok : Bool
  made : α
  state : σ
  visits : List (UInt32 × UInt32)

section Walk

variable {σ ρ α : Type} (w : Walker σ ρ α) (read : SectorReader) (joliet : Bool)

def usable (r : DirRecord) : Prop := r.name ≠ [] ∧ r.name ≠ ['.'] ∧ r.name ≠ ['.', '.']

instance (r : DirRecord) : Decidable (usable r) := inferInstanceAs (Decidable (_ ∧ _))

def visitRecord (visit : UInt32 → UInt32 → ρ → σ → Option (Outcome σ α)) (here : ρ) (r : DirRecord)
    (o : Outcome σ α) : Option (Outcome σ α) :=
  if ¬ usable r then some o
  else if r.isDir then
    match w.enter o.state here r with
    | (none, s) => some { o with ok := false, state := s }
    | (some there, s) => do
      let below ← visit r.extent r.size there s
      return ⟨below.ok, w.leave o.made r below.made, below.state, o.visits ++ below.visits⟩
  else
    match w.file o.state here r with
    | (none, s) => some { o with ok := false, state := s }
    | (some add, s) => some { o with made := add o.made, state := s }

def walkLoop (visit : UInt32 → UInt32 → ρ → σ → Option (Outcome σ α)) (dirData : Nat → UInt8) (size : UInt32)
    (here : ρ) : Nat → UInt32 → Outcome σ α → Option (Outcome σ α)
  | 0, _, _ => none
  | rounds + 1, pos, o =>
    if size ≤ pos then some o
    else
      let (round, used) := recordAt dirData (totalSize size) joliet pos
      if used.any ((bytesAllocated size).toNat ≤ ·) then none
      else
        match round with
        | .stop => some o
        | .skip next => walkLoop visit dirData size here rounds next o
        | .record r next => do
          let o' ← visitRecord w visit here r o
          if o'.ok then walkLoop visit dirData size here rounds next o' else return o'

/-- A directory with what is below it, for so many calls inside each other and so many rounds of each loop. -/
def walkDir : Nat → UInt32 → UInt32 → ρ → σ → Option (Outcome σ α)
  | 0, _, _, _, _ => none
  | fuel + 1, extent, size, here, s =>
    if w.accepts here = false ∨ sizeRefused size then some ⟨false, w.empty, s, [(extent, size)]⟩
    else
      match w.kmalloc s isoBlockSize.toNat with
      | (none, s) => some ⟨false, w.empty, s, [(extent, size)]⟩
      | (some _, s) =>
        match w.kmalloc s (bytesAllocated size).toNat with
        | (none, s) => some ⟨false, w.empty, s, [(extent, size)]⟩
        | (some block, s) =>
          match readExtent read extent size fun i => if i < (bytesAllocated size).toNat then block i else 0 with
          | none => some ⟨false, w.empty, s, [(extent, size)]⟩
          | some dirData =>
            walkLoop w joliet (walkDir fuel) dirData size here fuel 0 ⟨true, w.empty, s, [(extent, size)]⟩

end Walk

/-! ### Building the tree -/

section Calls

variable {σ : Type} (k : Kernel σ) (read : SectorReader) (joliet : Bool)

def nodeSize : Nat := 304

def isoNodeAlloc (diskIndex : Int) (s : σ) (r : DirRecord) : Option IsoNode × σ :=
  match k.kmalloc s nodeSize with
  | (none, s) => (none, s)
  | (some _, s) => (some (.mk r.name diskIndex r.extent r.size r.isDir []), s)

/-- The children made so far are the newest first, and a directory is a child whether or not its own records
could be read. -/
def treeBuilder (diskIndex : Int) : Walker σ IsoNode (List IsoNode) where
  kmalloc := k.kmalloc
  accepts := IsoNode.isDir
  empty := []
  enter s _ r := isoNodeAlloc k diskIndex s r
  leave children r below := .mk r.name diskIndex r.extent r.size true below :: children
  file s _ r :=
    match isoNodeAlloc k diskIndex s r with
    | (none, s) => (none, s)
    | (some child, s) => (some (child :: ·), s)

/-- `iso9660_build_tree_recursive`: what it returns and the children of `parent`, with the outcome of the walk. -/
def isoBuildTreeRecursive (diskIndex : Int) (fuel : Nat) (extent size : UInt32) (parent : IsoNode) (s : σ) :
    Option (Int × Outcome σ (List IsoNode)) :=
  (walkDir (treeBuilder k diskIndex) read joliet fuel extent size parent s).map fun o =>
    (if o.ok then 0 else -1, o)

/-! ### Copying -/

def isoBuildPath (max : Nat) (root name : List Char) : List Char :=
  let start := root.take (max - 1)
  let start :=
    if start ≠ [] ∧ start.getLast? ≠ some '/' ∧ start.length < max - 1 then start ++ ['/'] else start
  start ++ name.take (max - 1 - start.length)

/-- The loop of `iso_ensure_parent_dirs` behind `partial`. -/
def ensureParentDirs (s : σ) : List Char → List Char → σ
  | _, [] => s
  | soFar, c :: rest =>
    let s' := if soFar ≠ [] ∧ c = '/' then k.vfsMkdir s (soFar ++ [c]) else s
    ensureParentDirs s' (soFar ++ [c]) rest

def copyFileLoop (s : σ) (lba : UInt32) (remaining : Nat) : Bool × σ :=
  if remaining = 0 then (true, s)
  else
    let chunk := min remaining isoBlockSize.toNat
    match read lba with
    | none => (false, s)
    | some sector =>
      let (written, s) := k.vfsWrite s ((List.range chunk).map sector)
      if written = chunk then copyFileLoop s (lba + 1) (remaining - chunk) else (false, s)
termination_by remaining
decreasing_by
  have hBlock : isoBlockSize.toNat = 2048 := rfl
  omega

def isoCopyFileFromExtent (s : σ) (extent fileSize : UInt32) (dstPath : List Char) : Bool × σ :=
  match k.kmalloc s isoBlockSize.toNat with
  | (none, s) => (false, s)
  | (some _, s) =>
    let s := k.vfsUnlink (ensureParentDirs k s [] (dstPath.take 255)) dstPath
    match k.vfsOpen s dstPath with
    | (false, s) => (false, s)
    | (true, s) => copyFileLoop k read s extent fileSize.toNat

/-- Whatever `vfs_mkdir` returns, the directory is gone into. -/
def dirCopier : Walker σ (List Char) Nat where
  kmalloc := k.kmalloc
  accepts _ := true
  empty := 0
  enter s dstRoot r := (some (isoBuildPath 256 dstRoot r.name), k.vfsMkdir s (isoBuildPath 256 dstRoot r.name))
  leave copied _ _ := copied + 1
  file s dstRoot r :=
    match isoCopyFileFromExtent k read s r.extent r.size (isoBuildPath 256 dstRoot r.name) with
    | (true, s) => (some (· + 1), s)
    | (false, s) => (none, s)

def isoCopyDirRecursive (fuel : Nat) (extent size : UInt32) (dstRoot : List Char) (s : σ) :
    Option (Int × Outcome σ Nat) :=
  (walkDir (dirCopier k read) read joliet fuel extent size dstRoot s).map fun o =>
    (if o.ok then o.made else -1, o)

end Calls

/-! ### The records of a directory -/

section Records

variable (joliet : Bool)

def recordsFrom (dirData : Nat → UInt8) (size : UInt32) : Nat → UInt32 → Option (List DirRecord)
  | 0, _ => none
  | rounds + 1, pos =>
    if size ≤ pos then some []
    else
      match (recordAt dirData (totalSize size) joliet pos).1 with
      | .stop => some []
      | .skip next => recordsFrom dirData size rounds next
      | .record r next => (recordsFrom dirData size rounds next).map (r :: ·)

def directories (records : List DirRecord) : List (UInt32 × UInt32) :=
  (records.filter fun r => usable r ∧ r.isDir).map fun r => (r.extent, r.size)

variable (content : UInt32 → Nat → UInt8)

def extentData (d : UInt32 × UInt32) (i : Nat) : UInt8 :=
  if i < (totalSize d.2).toNat then content (d.1 + UInt32.ofNat (i / isoBlockSize.toNat)) (i % isoBlockSize.toNat)
  else 0

def recordsOf (d : UInt32 × UInt32) : List DirRecord :=
  (recordsFrom joliet (extentData content d) d.2 (d.2.toNat + 1) 0).getD []

def subdirectories (d : UInt32 × UInt32) : List (UInt32 × UInt32) := directories (recordsOf joliet content d)

def Refused (d : UInt32 × UInt32) : Prop := sizeRefused d.2

instance (d : UInt32 × UInt32) : Decidable (Refused d) := inferInstanceAs (Decidable (sizeRefused d.2))

def Wraps (d : UInt32 × UInt32) : Prop := 4294965248 < d.2

/-- From the records of directory `d` the walk comes to those of `e`: nothing before it in `d` is a directory
with one below it, or is one itself, that is refused for its size. -/
def GoesInto (d e : UInt32 × UInt32) : Prop := Enters (subdirectories joliet content) Refused d e

/-- No directory that is gone into has a size that wraps or is gone into again from below itself. -/
def WellFormedBelow (d : UInt32 × UInt32) : Prop :=
  ∀ e, ReflTransGen (GoesInto joliet content) d e → e.2 ≤ 4294965248 ∧ ¬ TransGen (GoesInto joliet content) e e

end Records

section Loop

variable {σ ρ α : Type} {w : Walker σ ρ α} {joliet : Bool} {visit : UInt32 → UInt32 → ρ → σ → Option (Outcome σ α)}
variable {dirData : Nat → UInt8} {size pos : UInt32} {here : ρ}

def walkRecords (w : Walker σ ρ α) (visit : UInt32 → UInt32 → ρ → σ → Option (Outcome σ α)) (here : ρ) :
    List DirRecord → Outcome σ α → Option (Outcome σ α)
  | [], o => some o
  | r :: rest, o => do
    let o' ← visitRecord w visit here r o
    if o'.ok then walkRecords w visit here rest o' else return o'

theorem used_inside (hSize : size.toNat ≤ 2 ^ 27) (hPos : pos < size) :
    ((recordAt dirData (totalSize size) joliet pos).2.any ((bytesAllocated size).toNat ≤ ·)) = false := by
  rw [List.any_eq_false]
  intro i hi hOut
  have hIn := (recordAt_inside hSize hPos).1 i hi
  have hOut := of_decide_eq_true hOut
  have hNe : totalSize size ≠ 0 := by
    rintro hZero
    rw [hZero] at hIn
    exact absurd hIn (Nat.not_lt_zero i)
  rw [bytesAllocated, if_pos hNe] at hOut
  omega

theorem recordsFrom_isSome (hSize : size.toNat ≤ 2 ^ 27) :
    ∀ rounds pos, size.toNat - pos.toNat < rounds →
      ∃ records, recordsFrom joliet dirData size rounds pos = some records
  | 0, pos, h => absurd h (Nat.not_lt_zero _)
  | rounds + 1, pos, h => by
    rw [recordsFrom]
    split
    · exact ⟨[], rfl⟩
    rename_i hMore
    have hPos : pos < size := UInt32.not_le.mp hMore
    have hPosNat := UInt32.lt_iff_toNat_lt.mp hPos
    have hRest : ∀ next, (recordAt dirData (totalSize size) joliet pos).1.next = some next →
        ∃ records, recordsFrom joliet dirData size rounds next = some records := by
      intro next hNext
      have hOn := UInt32.lt_iff_toNat_lt.mp ((recordAt_inside hSize hPos).2 next hNext).1
      exact recordsFrom_isSome hSize rounds next (by omega)
    split
    · exact ⟨[], rfl⟩
    · rename_i next hRound
      exact hRest next (by rw [hRound]; rfl)
    · rename_i r next hRound
      obtain ⟨records, hRecords⟩ := hRest next (by rw [hRound]; rfl)
      exact ⟨r :: records, by rw [hRecords]; rfl⟩

theorem walkLoop_of_records (hSize : size.toNat ≤ 2 ^ 27) {m : Nat} :
    ∀ {pos : UInt32} {records : List DirRecord}, recordsFrom joliet dirData size m pos = some records →
      ∀ (n : Nat) (o : Outcome σ α),
        (m ≤ n → walkLoop w joliet visit dirData size here n pos o = walkRecords w visit here records o) ∧
        ∀ o', walkLoop w joliet visit dirData size here n pos o = some o' →
          walkRecords w visit here records o = some o' := by
  induction m with
  | zero => exact fun h => absurd h (by simp [recordsFrom])
  | succ m ih =>
    intro pos records hRecords n o
    cases n with
    | zero => exact ⟨fun h => absurd h (Nat.not_succ_le_zero m), fun o' h => absurd h (by simp [walkLoop])⟩
    | succ n =>
      rw [recordsFrom] at hRecords
      rw [walkLoop]
      by_cases hMore : size ≤ pos
      · rw [if_pos hMore] at hRecords
        rw [if_pos hMore, ← Option.some.inj hRecords]
        exact ⟨fun _ => rfl, fun o' h => h⟩
      rw [if_neg hMore] at hRecords
      rw [if_neg hMore]
      dsimp only
      rw [if_neg (by rw [used_inside hSize (UInt32.not_le.mp hMore)]; exact Bool.false_ne_true)]
      cases hRound : (recordAt dirData (totalSize size) joliet pos).1 with
      | stop =>
        rw [hRound] at hRecords
        rw [← Option.some.inj hRecords]
        exact ⟨fun _ => rfl, fun o' h => h⟩
      | skip next =>
        rw [hRound] at hRecords
        have hNext := ih hRecords n o
        exact ⟨fun hLe => hNext.1 (Nat.le_of_succ_le_succ hLe), hNext.2⟩
      | record r next =>
        rw [hRound] at hRecords
        obtain ⟨rest, hRest, rfl⟩ := Option.map_eq_some_iff.mp hRecords
        dsimp only
        rw [walkRecords]
        cases visitRecord w visit here r o with
        | none => exact ⟨fun _ => rfl, fun o' h => absurd h (by simp)⟩
        | some o₁ =>
          simp only [Option.bind_eq_bind, Option.bind_some]
          split
          · have hNext := ih hRest n o₁
            exact ⟨fun hLe => hNext.1 (Nat.le_of_succ_le_succ hLe), hNext.2⟩
          · exact ⟨fun _ => rfl, fun o' h => h⟩

theorem readSectors_total {content : UInt32 → Nat → UInt8} {extent : UInt32} {heap : Nat → UInt8} (n : Nat) :
    readSectors (fun lba => some (content lba)) extent heap n = some fun i =>
      if i / isoBlockSize.toNat < n then content (extent + UInt32.ofNat (i / isoBlockSize.toNat)) (i % isoBlockSize.toNat)
      else heap i := by
  induction n with
  | zero => simp [readSectors]
  | succ n ih =>
    rw [readSectors, ih]
    simp only [Option.bind_eq_bind, Option.bind_some, Option.pure_def, Option.some.injEq]
    funext i
    by_cases hLast : i / isoBlockSize.toNat = n
    · rw [if_pos hLast, if_pos (by omega), hLast]
    · rw [if_neg hLast]
      split
      · rw [if_pos (by omega)]
      · rw [if_neg (by omega)]

theorem readExtent_total {content : UInt32 → Nat → UInt8} {extent : UInt32} {block : Nat → UInt8} (hPos : size ≠ 0)
    (hSize : size.toNat ≤ 2 ^ 27) :
    readExtent (fun lba => some (content lba)) extent size
      (fun i => if i < (bytesAllocated size).toNat then block i else 0) = some (extentData content (extent, size)) := by
  have hTotal := totalSize_toNat hSize
  have hBlock : isoBlockSize.toNat = 2048 := rfl
  have hNat : size.toNat ≠ 0 := fun hEq => hPos (UInt32.toNat_inj.mp hEq)
  have hNe : totalSize size ≠ 0 := by
    intro hZero
    have hNatZero : (totalSize size).toNat = 0 := by rw [hZero]; rfl
    omega
  rw [readExtent, readSectors_total, sectorCount_toNat (by omega), bytesAllocated, if_pos hNe]
  refine congrArg some (funext fun i => ?_)
  rw [extentData]
  by_cases hIn : i < (totalSize size).toNat
  · rw [if_pos (by rw [hBlock]; omega), if_pos hIn]
  · rw [if_neg (by rw [hBlock]; omega), if_neg hIn, if_neg hIn]

theorem recordsFrom_readExtent {content : UInt32 → Nat → UInt8} {extent : UInt32} {block : Nat → UInt8}
    (hSize : size.toNat ≤ 2 ^ 27) :
    ∃ dirData, readExtent (fun lba => some (content lba)) extent size
        (fun i => if i < (bytesAllocated size).toNat then block i else 0) = some dirData ∧
      recordsFrom joliet dirData size (size.toNat + 1) 0 = some (recordsOf joliet content (extent, size)) := by
  have hSome : ∀ dirData, ∃ records, recordsFrom joliet dirData size (size.toNat + 1) 0 = some records :=
    fun dirData => recordsFrom_isSome hSize _ _ (by omega)
  by_cases hPos : size = 0
  · subst hPos
    exact ⟨_, rfl, rfl⟩
  · refine ⟨_, readExtent_total hPos hSize, ?_⟩
    obtain ⟨records, hRecords⟩ := hSome (extentData content (extent, size))
    rw [recordsOf, hRecords]
    rfl

end Loop

/-! ### Whatever the kernel answers -/

section Ends

variable {σ ρ α : Type} {joliet : Bool} {content : UInt32 → Nat → UInt8}

theorem le_of_not_refused {d : UInt32 × UInt32} (hOk : ¬ Refused d) (hFree : ¬ Wraps d) : d.2.toNat ≤ 2 ^ 27 := by
  have hSmall : d.2.toNat ≤ 2 ^ 32 - 2048 := Nat.le_of_not_lt fun hLt => hFree (UInt32.lt_iff_toNat_lt.mpr hLt)
  exact Nat.le_of_not_lt ((sizeRefused_iff hSmall).not.mp hOk)

/-- Going over the records takes no more calls inside each other than `n`, visits no more than `visits`, and
comes to the last record only if `ok`. -/
def Done (joliet : Bool) (content : UInt32 → Nat → UInt8) (records : List DirRecord) (ok : Bool)
    (visits : List (UInt32 × UInt32)) (n : Nat) : Prop :=
  ∀ ⦃σ ρ α : Type⦄ (w : Walker σ ρ α) (here : ρ) (o : Outcome σ α), o.ok = true →
    ∃ o' visited, walkRecords w (walkDir w (fun lba => some (content lba)) joliet n) here records o = some o' ∧
      o'.visits = o.visits ++ visited ∧ visited.Sublist visits ∧ (o'.ok = true → ok = true)

theorem Done.nil {n : Nat} : Done joliet content [] true [] n :=
  fun _ _ _ _ _ o _ => ⟨o, [], rfl, (List.append_nil _).symm, .slnil, fun _ => rfl⟩

theorem Done.skip {r : DirRecord} {records : List DirRecord} {ok : Bool} {visits : List (UInt32 × UInt32)} {n : Nat}
    (hr : ¬ (usable r ∧ r.isDir)) (h : Done joliet content records ok visits n) :
    Done joliet content (r :: records) ok visits n := by
  intro σ ρ α w here o hOk
  have hStep : ∃ o₁, visitRecord w (walkDir w (fun lba => some (content lba)) joliet n) here r o = some o₁ ∧
      o₁.visits = o.visits := by
    rw [visitRecord]
    by_cases hUsable : usable r
    · rw [if_neg (not_not.mpr hUsable), if_neg fun hDir => hr ⟨hUsable, hDir⟩]
      split
      · exact ⟨_, rfl, rfl⟩
      · exact ⟨_, rfl, rfl⟩
    · rw [if_pos hUsable]
      exact ⟨o, rfl, rfl⟩
  obtain ⟨o₁, hVisit, hSame⟩ := hStep
  rw [walkRecords, hVisit]
  simp only [Option.bind_eq_bind, Option.bind_some]
  cases hOk₁ : o₁.ok with
  | true =>
    obtain ⟨o', visited, hRun, hVisits, hSub, hEnd⟩ := h w here o₁ hOk₁
    exact ⟨o', visited, by rw [if_pos rfl]; exact hRun, hSame ▸ hVisits, hSub, hEnd⟩
  | false =>
    refine ⟨o₁, [], by rw [if_neg Bool.false_ne_true]; rfl, by rw [hSame, List.append_nil], List.nil_sublist _, ?_⟩
    exact fun hTrue => absurd (hOk₁.symm.trans hTrue) Bool.false_ne_true

theorem directories_skip {r : DirRecord} {records : List DirRecord} (hr : ¬ (usable r ∧ r.isDir)) :
    directories (r :: records) = directories records := by
  rw [directories, directories, List.filter_cons_of_neg (by simpa using hr)]

theorem directories_cons {r : DirRecord} {records : List DirRecord} (hr : usable r ∧ r.isDir) :
    directories (r :: records) = (r.extent, r.size) :: directories records := by
  rw [directories, directories, List.filter_cons_of_pos (by simpa using hr), List.map_cons]

theorem Done.of_no_directory {n : Nat} :
    ∀ {records : List DirRecord}, directories records = [] → Done joliet content records true [] n
  | [], _ => .nil
  | r :: records, h => by
    by_cases hr : usable r ∧ r.isDir
    · rw [directories_cons hr] at h
      exact absurd h (List.cons_ne_nil _ _)
    · exact (Done.of_no_directory (directories_skip hr ▸ h)).skip hr

theorem Done.of_first {d : UInt32 × UInt32} {rest visits : List (UInt32 × UInt32)} {ok : Bool} {n : Nat}
    (hFirst : ∀ (r : DirRecord) (records : List DirRecord), usable r ∧ r.isDir → (r.extent, r.size) = d →
      directories records = rest → Done joliet content (r :: records) ok visits n) :
    ∀ {records : List DirRecord}, directories records = d :: rest → Done joliet content records ok visits n
  | [], h => absurd h (by simp [directories])
  | r :: records, h => by
    by_cases hr : usable r ∧ r.isDir
    · rw [directories_cons hr] at h
      obtain ⟨hd, hRest⟩ := List.cons.inj h
      exact hFirst r records hr hd hRest
    · exact (Done.of_first hFirst (directories_skip hr ▸ h)).skip hr

def DirDone (joliet : Bool) (content : UInt32 → Nat → UInt8) (d : UInt32 × UInt32) (ok : Bool)
    (visits : List (UInt32 × UInt32)) (n : Nat) : Prop :=
  ∀ ⦃σ ρ α : Type⦄ (w : Walker σ ρ α) (here : ρ) (s : σ),
    ∃ o, walkDir w (fun lba => some (content lba)) joliet n d.1 d.2 here s = some o ∧ o.visits.Sublist visits ∧
      (o.ok = true → ok = true)

variable {d : UInt32 × UInt32} {ok : Bool} {below : List (UInt32 × UInt32)} {n : Nat}

theorem DirDone.refused (h : Refused d) : DirDone joliet content d false [d] (n + 1) := by
  intro σ ρ α w here s
  rw [walkDir, if_pos (Or.inr (show sizeRefused d.2 from h))]
  exact ⟨_, rfl, .refl _, id⟩

theorem DirDone.of_records (hOk : ¬ Refused d) (hFree : ¬ Wraps d) (hFuel : d.2.toNat < n)
    (h : Done joliet content (recordsOf joliet content d) ok below n) :
    DirDone joliet content d ok (d :: below) (n + 1) := by
  intro σ ρ α w here s
  have hStop : ∀ s' : σ, ∃ o : Outcome σ α, (some ⟨false, w.empty, s', [(d.1, d.2)]⟩ : Option (Outcome σ α)) = some o ∧
      o.visits.Sublist (d :: below) ∧ (o.ok = true → ok = true) :=
    fun s' => ⟨_, rfl, (List.nil_sublist below).cons_cons d, fun hTrue => absurd hTrue Bool.false_ne_true⟩
  have hSize := le_of_not_refused hOk hFree
  rw [walkDir]
  split
  · exact hStop s
  split
  · exact hStop _
  split
  · exact hStop _
  rename_i block s' _
  obtain ⟨dirData, hRead, hRecords⟩ :=
    @recordsFrom_readExtent joliet d.2 content d.1 block hSize
  rw [hRead]
  obtain ⟨o', visited, hRun, hVisits, hSub, hEnd⟩ := h w here ⟨true, w.empty, s', [(d.1, d.2)]⟩ rfl
  refine ⟨o', ?_, ?_, hEnd⟩
  · exact ((walkLoop_of_records hSize hRecords n _).1 hFuel).trans hRun
  · rw [hVisits]
    exact hSub.cons_cons d

theorem visitRecord_directory {σ ρ α : Type} {w : Walker σ ρ α}
    {visit : UInt32 → UInt32 → ρ → σ → Option (Outcome σ α)} {here : ρ} {r : DirRecord} (hr : usable r ∧ r.isDir)
    (o : Outcome σ α) :
    visitRecord w visit here r o =
      match w.enter o.state here r with
      | (none, s) => some { o with ok := false, state := s }
      | (some there, s) => do
        let below ← visit r.extent r.size there s
        return ⟨below.ok, w.leave o.made r below.made, below.state, o.visits ++ below.visits⟩ := by
  rw [visitRecord, if_neg (not_not.mpr hr.1), if_pos hr.2]

theorem Done.stops {r : DirRecord} {records : List DirRecord} (hr : usable r ∧ r.isDir)
    (h : DirDone joliet content (r.extent, r.size) false below n) :
    Done joliet content (r :: records) false below n := by
  intro σ ρ α w here o _
  rw [walkRecords, visitRecord_directory hr]
  split
  · exact ⟨_, [], rfl, (List.append_nil _).symm, List.nil_sublist _, id⟩
  · rename_i there s _
    obtain ⟨o₁, hRun, hSub, hEnd⟩ := h w there s
    have hFalse : o₁.ok = false := Bool.eq_false_iff.mpr fun hTrue => absurd (hEnd hTrue) Bool.false_ne_true
    rw [hRun]
    simp only [Option.bind_eq_bind, Option.bind_some, Option.pure_def, hFalse]
    exact ⟨_, o₁.visits, rfl, rfl, hSub, id⟩

theorem Done.next {r : DirRecord} {records : List DirRecord} {after : List (UInt32 × UInt32)}
    (hr : usable r ∧ r.isDir) (h : DirDone joliet content (r.extent, r.size) true below n)
    (hRest : Done joliet content records ok after n) : Done joliet content (r :: records) ok (below ++ after) n := by
  intro σ ρ α w here o _
  rw [walkRecords, visitRecord_directory hr]
  split
  · exact ⟨_, [], rfl, (List.append_nil _).symm, List.nil_sublist _, fun hTrue => absurd hTrue Bool.false_ne_true⟩
  · rename_i there s _
    obtain ⟨o₁, hRun, hSub, -⟩ := h w there s
    rw [hRun]
    simp only [Option.bind_eq_bind, Option.bind_some, Option.pure_def]
    cases hOk₁ : o₁.ok with
    | false =>
      exact ⟨_, o₁.visits, rfl, rfl, hSub.trans (List.sublist_append_left _ _),
        fun hTrue => absurd hTrue Bool.false_ne_true⟩
    | true =>
      obtain ⟨o', visited, hRun', hVisits, hSub', hEnd⟩ :=
        hRest w here ⟨true, w.leave o.made r o₁.made, o₁.state, o.visits ++ o₁.visits⟩ rfl
      exact ⟨o', o₁.visits ++ visited, hRun', by rw [hVisits, List.append_assoc], hSub.append hSub', hEnd⟩

theorem done_of_walks {l visits : List (UInt32 × UInt32)}
    (h : Walks (subdirectories joliet content) Refused Wraps l ok visits) :
    ∃ N, ∀ n, N ≤ n → ∀ records, directories records = l → Done joliet content records ok visits n := by
  induction h with
  | nil => exact ⟨0, fun _ _ _ hRecords => .of_no_directory hRecords⟩
  | fails hFails =>
    refine ⟨1, fun n hn _ hRecords => .of_first (fun r rest hr hd _ => .stops hr ?_) hRecords⟩
    obtain ⟨m, rfl⟩ := Nat.exists_eq_add_of_le' hn
    rw [hd]
    exact .refused hFails
  | @stops d _ _ hOk hFree _ ih =>
    obtain ⟨N, hN⟩ := ih
    refine ⟨N + d.2.toNat + 2, fun n hn _ hRecords => .of_first (fun r rest hr hd _ => .stops hr ?_) hRecords⟩
    obtain ⟨m, rfl⟩ := Nat.exists_eq_add_of_le' (Nat.le_trans (Nat.le_add_left 1 _) hn)
    rw [hd]
    exact .of_records hOk hFree (by omega) (hN m (by omega) _ rfl)
  | @next d _ _ _ _ hOk hFree _ _ ihBelow ihRest =>
    obtain ⟨N, hN⟩ := ihBelow
    obtain ⟨M, hM⟩ := ihRest
    refine ⟨N + M + d.2.toNat + 2, fun n hn _ hRecords => .of_first (fun r rest hr hd hRest => ?_) hRecords⟩
    obtain ⟨m, rfl⟩ := Nat.exists_eq_add_of_le' (Nat.le_trans (Nat.le_add_left 1 _) hn)
    subst hd
    rw [← List.cons_append]
    exact .next hr (.of_records hOk hFree (by omega) (hN m (by omega) _ rfl)) (hM (m + 1) (by omega) rest hRest)

theorem dirDone_of_walks {visits : List (UInt32 × UInt32)}
    (h : Walks (subdirectories joliet content) Refused Wraps [d] ok visits) :
    ∃ n, DirDone joliet content d ok visits n := by
  cases h with
  | fails hFails => exact ⟨1, .refused hFails⟩
  | stops hOk hFree hBelow =>
    obtain ⟨N, hN⟩ := done_of_walks hBelow
    exact ⟨N + d.2.toNat + 2, .of_records hOk hFree (by omega) (hN _ (by omega) _ rfl)⟩
  | next hOk hFree hBelow hRest =>
    cases hRest
    obtain ⟨N, hN⟩ := done_of_walks hBelow
    rw [List.append_nil]
    exact ⟨N + d.2.toNat + 2, .of_records hOk hFree (by omega) (hN _ (by omega) _ rfl)⟩

end Ends

/-! ### A kernel that grants everything -/

section Granted

structure Generous {σ ρ α : Type} (w : Walker σ ρ α) (accepted : ρ → Prop) : Prop where
  kmalloc : ∀ s bytes, ∃ s', w.kmalloc s bytes = (some fun _ => 0, s')
  accepts : ∀ here, accepted here → w.accepts here = true
  enter : ∀ s here r, r.isDir = true → ∃ there s', w.enter s here r = (some there, s') ∧ accepted there
  file : ∀ s here r, ∃ add s', w.file s here r = (some add, s')

variable {σ ρ α : Type} {w : Walker σ ρ α} {accepted : ρ → Prop} {joliet : Bool} {content : UInt32 → Nat → UInt8}

theorem readExtent_of_wraps {read : SectorReader} {extent size : UInt32} {heap : Nat → UInt8}
    (hWraps : 4294965248 < size) : readExtent read extent size heap = some heap := by
  rw [readExtent, sectorCount_eq_zero (UInt32.lt_iff_toNat_lt.mp hWraps)]
  rfl

theorem walkLoop_of_wraps {visit : UInt32 → UInt32 → ρ → σ → Option (Outcome σ α)} {size : UInt32} {here : ρ}
    (hWraps : 4294965248 < size) (n : Nat) (o : Outcome σ α) :
    walkLoop w joliet visit (fun _ => 0) size here n 0 o = none := by
  have hTotal : totalSize size = 0 := totalSize_of_wraps (UInt32.lt_iff_toNat_lt.mp hWraps)
  have hAllocated : bytesAllocated size = isoBlockSize := by
    rw [bytesAllocated, if_neg (not_not.mpr hTotal)]
  have hLarge : ∀ pos : UInt32, pos ≤ 4294965248 → ¬ size ≤ pos := fun pos hPos hLe =>
    absurd (UInt32.lt_of_lt_of_le hWraps (UInt32.le_trans hLe hPos)) (UInt32.lt_irrefl _)
  have hRound : ∀ pos, recordAt (fun _ => 0) (totalSize size) joliet pos = (.skip (nextBlock pos), [pos.toNat]) :=
    fun pos => by rw [recordAt, if_pos rfl]
  rcases n with _ | _ | n
  · rfl
  · rw [walkLoop, if_neg (hLarge 0 (by decide)), hRound, hAllocated]
    rfl
  · rw [walkLoop, if_neg (hLarge 0 (by decide)), hRound, hAllocated]
    show walkLoop w joliet visit (fun _ => 0) size here (n + 1) 2048 o = none
    rw [walkLoop, if_neg (hLarge 2048 (by decide)), hRound, hAllocated]
    rfl

theorem Generous.walkRecords (hw : Generous w accepted) {n : Nat}
    (hDirs : ∀ d here s o, accepted here → walkDir w (fun lba => some (content lba)) joliet n d.1 d.2 here s = some o →
      Walks (subdirectories joliet content) Refused Wraps [d] o.ok o.visits) {here : ρ} (hHere : accepted here) :
    ∀ (records : List DirRecord) (o o' : Outcome σ α), o.ok = true →
      walkRecords w (walkDir w (fun lba => some (content lba)) joliet n) here records o = some o' →
      ∃ visited, o'.visits = o.visits ++ visited ∧
        Walks (subdirectories joliet content) Refused Wraps (directories records) o'.ok visited
  | [], o, o', hOk, hRun => by
    obtain rfl := Option.some.inj hRun
    exact ⟨[], (List.append_nil _).symm, hOk ▸ .nil⟩
  | r :: records, o, o', hOk, hRun => by
    rw [Iso9660.walkRecords] at hRun
    obtain ⟨o₁, hVisit, hRun⟩ := Option.bind_eq_some_iff.mp hRun
    by_cases hr : usable r ∧ r.isDir
    · rw [visitRecord_directory hr] at hVisit
      obtain ⟨there, s, hEnter, hThere⟩ := hw.enter o.state here r hr.2
      rw [hEnter] at hVisit
      obtain ⟨below, hBelow, hVisit⟩ := Option.bind_eq_some_iff.mp hVisit
      obtain rfl := Option.some.inj hVisit
      have hWalk := hDirs (r.extent, r.size) there s below hThere hBelow
      rw [directories_cons hr]
      dsimp only at hRun
      cases hEnd : below.ok with
      | false =>
        rw [hEnd] at hRun hWalk
        obtain rfl := Option.some.inj hRun
        exact ⟨below.visits, rfl, hWalk.cons_of_false⟩
      | true =>
        rw [hEnd] at hRun hWalk
        obtain ⟨visited, hVisits, hRest⟩ := hw.walkRecords hDirs hHere records _ o' rfl hRun
        exact ⟨below.visits ++ visited, by rw [hVisits, List.append_assoc], hWalk.cons_of_true hRest⟩
    · have hSame : o₁.ok = true ∧ o₁.visits = o.visits := by
        rw [visitRecord] at hVisit
        by_cases hUsable : usable r
        · obtain ⟨add, s, hFile⟩ := hw.file o.state here r
          rw [if_neg (not_not.mpr hUsable), if_neg fun hDir => hr ⟨hUsable, hDir⟩, hFile] at hVisit
          obtain rfl := Option.some.inj hVisit
          exact ⟨hOk, rfl⟩
        · rw [if_pos hUsable] at hVisit
          obtain rfl := Option.some.inj hVisit
          exact ⟨hOk, rfl⟩
      rw [if_pos hSame.1] at hRun
      obtain ⟨visited, hVisits, hRest⟩ := hw.walkRecords hDirs hHere records o₁ o' hSame.1 hRun
      exact ⟨visited, hSame.2 ▸ hVisits, by rwa [directories_skip hr]⟩

theorem Generous.walkDir (hw : Generous w accepted) :
    ∀ (n : Nat) (d : UInt32 × UInt32) (here : ρ) (s : σ) (o : Outcome σ α), accepted here →
      walkDir w (fun lba => some (content lba)) joliet n d.1 d.2 here s = some o →
      Walks (subdirectories joliet content) Refused Wraps [d] o.ok o.visits
  | 0, _, _, _, _, _, hRun => absurd hRun (by simp [Iso9660.walkDir])
  | n + 1, d, here, s, o, hHere, hRun => by
    rw [Iso9660.walkDir, hw.accepts here hHere] at hRun
    by_cases hRefused : Refused d
    · rw [if_pos (Or.inr (show sizeRefused d.2 from hRefused))] at hRun
      obtain rfl := Option.some.inj hRun
      exact .fails hRefused
    obtain ⟨s₁, hFirst⟩ := hw.kmalloc s isoBlockSize.toNat
    obtain ⟨s₂, hSecond⟩ := hw.kmalloc s₁ (bytesAllocated d.2).toNat
    have hGo : ¬ (true = false ∨ sizeRefused d.2) := not_or.mpr ⟨Bool.false_ne_true.symm, hRefused⟩
    rw [if_neg hGo, hFirst] at hRun
    dsimp only at hRun
    rw [hSecond] at hRun
    dsimp only at hRun
    by_cases hWraps : Wraps d
    · rw [readExtent_of_wraps hWraps] at hRun
      simp only [ite_self] at hRun
      exact absurd (hRun.symm.trans (walkLoop_of_wraps hWraps n _)) (Option.some_ne_none o)
    · have hSize := le_of_not_refused hRefused hWraps
      obtain ⟨dirData, hRead, hRecords⟩ :=
        @recordsFrom_readExtent joliet d.2 content d.1 (fun _ => 0) hSize
      rw [hRead] at hRun
      have hList := (walkLoop_of_records hSize hRecords n _).2 o hRun
      obtain ⟨visited, hVisits, hWalk⟩ := hw.walkRecords (hw.walkDir n) hHere _ _ o rfl hList
      rw [hVisits]
      exact hWalk.of_kids hRefused hWraps

def grantAll : Kernel Unit where
  kmalloc _ _ := (some fun _ => 0, ())
  vfsMkdir _ _ := ()
  vfsUnlink _ _ := ()
  vfsOpen _ _ := (true, ())
  vfsWrite _ bytes := (bytes.length, ())

theorem copyFileLoop_grantAll (remaining : Nat) (lba : UInt32) :
    copyFileLoop grantAll (fun lba => some (content lba)) () lba remaining = (true, ()) := by
  induction remaining using Nat.strong_induction_on generalizing lba with
  | _ remaining ih =>
    rw [copyFileLoop]
    split
    · rfl
    rename_i hMore
    have hBlock : isoBlockSize.toNat = 2048 := rfl
    have hWritten : (grantAll.vfsWrite () ((List.range (min remaining isoBlockSize.toNat)).map (content lba))).1 =
        (min remaining isoBlockSize.toNat : Nat) := by
      simp [grantAll]
    dsimp only
    rw [if_pos hWritten]
    exact ih _ (by omega) _

theorem generous_treeBuilder (diskIndex : Int) : Generous (treeBuilder grantAll diskIndex) (IsoNode.isDir · = true) where
  kmalloc _ _ := ⟨(), rfl⟩
  accepts _ h := h
  enter _ _ _ h := ⟨_, (), rfl, h⟩
  file _ _ _ := ⟨_, (), rfl⟩

theorem generous_dirCopier : Generous (dirCopier grantAll fun lba => some (content lba)) fun _ => True where
  kmalloc _ _ := ⟨(), rfl⟩
  accepts _ _ := rfl
  enter _ _ _ _ := ⟨_, (), rfl, trivial⟩
  file s dst r := by
    have hCopy : isoCopyFileFromExtent grantAll (fun lba => some (content lba)) s r.extent r.size
        (isoBuildPath 256 dst r.name) = (true, ()) := copyFileLoop_grantAll _ _
    refine ⟨(· + 1), (), ?_⟩
    simp only [dirCopier, hCopy]

end Granted

/-! ### When the recursion ends -/

section Theorem

variable (joliet : Bool) (content : UInt32 → Nat → UInt8) (d : UInt32 × UInt32)

/-- On a disk with this content the tree below directory `d` is built in a bounded number of steps, whatever the
kernel answers, and there is a bound on how often any extent is visited. -/
def BuildEnds : Prop :=
  ∃ fuel bound, ∀ (σ : Type) (k : Kernel σ) (diskIndex : Int) (parent : IsoNode) (s : σ),
    ∃ ret o, isoBuildTreeRecursive k (fun lba => some (content lba)) joliet diskIndex fuel d.1 d.2 parent s =
        some (ret, o) ∧ ∀ extent, o.visits.countP (·.1 = extent) ≤ bound

def CopyEnds : Prop :=
  ∃ fuel bound, ∀ (σ : Type) (k : Kernel σ) (dstRoot : List Char) (s : σ),
    ∃ ret o, isoCopyDirRecursive k (fun lba => some (content lba)) joliet fuel d.1 d.2 dstRoot s = some (ret, o) ∧
      ∀ extent, o.visits.countP (·.1 = extent) ≤ bound

variable {joliet content d}

theorem walks_iff_wellFormedBelow :
    (∃ ok visits, Walks (subdirectories joliet content) Refused Wraps [d] ok visits) ↔
      WellFormedBelow joliet content d := by
  have : Finite UInt32 := Finite.of_injective UInt32.toFin fun _ _ => UInt32.toFin_inj.mp
  rw [walks_iff]
  refine forall_congr' fun e => imp_congr_right fun _ => and_congr_left fun _ => ?_
  rw [Wraps, UInt32.not_lt]
  constructor
  · intro h
    by_contra hLarge
    have hWraps := UInt32.not_le.mp hLarge
    exact hLarge (h (not_sizeRefused_of_wraps (UInt32.lt_iff_toNat_lt.mp hWraps)))
  · exact fun h _ => h

theorem DirDone.bounded {ok : Bool} {visits : List (UInt32 × UInt32)} {n : Nat} (h : DirDone joliet content d ok visits n)
    {σ ρ α : Type} (w : Walker σ ρ α) (here : ρ) (s : σ) :
    ∃ o, walkDir w (fun lba => some (content lba)) joliet n d.1 d.2 here s = some o ∧
      ∀ extent, o.visits.countP (·.1 = extent) ≤ visits.length := by
  obtain ⟨o, hRun, hSub, -⟩ := h w here s
  exact ⟨o, hRun, fun extent => Nat.le_trans List.countP_le_length hSub.length_le⟩

theorem buildEnds_of_wellFormedBelow (h : WellFormedBelow joliet content d) : BuildEnds joliet content d := by
  obtain ⟨ok, visits, hWalk⟩ := walks_iff_wellFormedBelow.mpr h
  obtain ⟨n, hDone⟩ := dirDone_of_walks hWalk
  refine ⟨n, visits.length, fun σ k diskIndex parent s => ?_⟩
  obtain ⟨o, hRun, hVisits⟩ := hDone.bounded (treeBuilder k diskIndex) parent s
  exact ⟨_, o, by rw [isoBuildTreeRecursive, hRun]; rfl, hVisits⟩

theorem copyEnds_of_wellFormedBelow (h : WellFormedBelow joliet content d) : CopyEnds joliet content d := by
  obtain ⟨ok, visits, hWalk⟩ := walks_iff_wellFormedBelow.mpr h
  obtain ⟨n, hDone⟩ := dirDone_of_walks hWalk
  refine ⟨n, visits.length, fun σ k dstRoot s => ?_⟩
  obtain ⟨o, hRun, hVisits⟩ := hDone.bounded (dirCopier k fun lba => some (content lba)) dstRoot s
  exact ⟨_, o, by rw [isoCopyDirRecursive, hRun]; rfl, hVisits⟩

theorem never_ends (h : ¬ WellFormedBelow joliet content d) {ρ α : Type} {w : Walker Unit ρ α} {accepted : ρ → Prop}
    (hw : Generous w accepted) {here : ρ} (hHere : accepted here) (fuel : Nat) :
    walkDir w (fun lba => some (content lba)) joliet fuel d.1 d.2 here () = none := by
  cases hRun : walkDir w (fun lba => some (content lba)) joliet fuel d.1 d.2 here () with
  | none => rfl
  | some o => exact absurd (walks_iff_wellFormedBelow.mp ⟨_, _, hw.walkDir fuel d here () o hHere hRun⟩) h

theorem isoBuildTreeRecursive_none (h : ¬ WellFormedBelow joliet content d) (fuel : Nat) (diskIndex : Int)
    {parent : IsoNode} (hDir : parent.isDir = true) :
    isoBuildTreeRecursive grantAll (fun lba => some (content lba)) joliet diskIndex fuel d.1 d.2 parent () = none := by
  rw [isoBuildTreeRecursive, never_ends h (generous_treeBuilder diskIndex) hDir]
  rfl

theorem isoCopyDirRecursive_none (h : ¬ WellFormedBelow joliet content d) (fuel : Nat) (dstRoot : List Char) :
    isoCopyDirRecursive grantAll (fun lba => some (content lba)) joliet fuel d.1 d.2 dstRoot () = none := by
  rw [isoCopyDirRecursive, never_ends h generous_dirCopier trivial]
  rfl

theorem wellFormedBelow_of_buildEnds (hEnds : BuildEnds joliet content d) : WellFormedBelow joliet content d := by
  by_contra h
  obtain ⟨fuel, bound, hEnds⟩ := hEnds
  obtain ⟨ret, o, hRun, -⟩ := hEnds Unit grantAll 0 (.mk [] 0 d.1 d.2 true []) ()
  exact absurd ((isoBuildTreeRecursive_none h fuel 0 rfl).symm.trans hRun) (Option.some_ne_none _).symm

theorem wellFormedBelow_of_copyEnds (hEnds : CopyEnds joliet content d) : WellFormedBelow joliet content d := by
  by_contra h
  obtain ⟨fuel, bound, hEnds⟩ := hEnds
  obtain ⟨ret, o, hRun, -⟩ := hEnds Unit grantAll [] ()
  exact absurd ((isoCopyDirRecursive_none h fuel []).symm.trans hRun) (Option.some_ne_none _).symm

/-- For every content of the disk, the directories below one are built and copied in a bounded number of steps if
and only if none that is gone into has a size that wraps or is gone into again from below itself. Otherwise
neither call ends where no call of the kernel fails. -/
theorem directory_recursion_ends_iff (joliet : Bool) (content : UInt32 → Nat → UInt8) (d : UInt32 × UInt32) :
    (BuildEnds joliet content d ↔ WellFormedBelow joliet content d) ∧
    (CopyEnds joliet content d ↔ WellFormedBelow joliet content d) ∧
    (¬ WellFormedBelow joliet content d → ∀ fuel,
      (∀ diskIndex parent, parent.isDir = true →
        isoBuildTreeRecursive grantAll (fun lba => some (content lba)) joliet diskIndex fuel d.1 d.2 parent () = none) ∧
      ∀ dstRoot,
        isoCopyDirRecursive grantAll (fun lba => some (content lba)) joliet fuel d.1 d.2 dstRoot () = none) := by
  refine ⟨⟨wellFormedBelow_of_buildEnds, buildEnds_of_wellFormedBelow⟩,
    ⟨wellFormedBelow_of_copyEnds, copyEnds_of_wellFormedBelow⟩, fun h fuel => ?_⟩
  exact ⟨fun diskIndex _ hDir => isoBuildTreeRecursive_none h fuel diskIndex hDir, isoCopyDirRecursive_none h fuel⟩

/-- Every sector starts with the record of a directory `A`, which is the sector 20. -/
def loopDisk (_lba : UInt32) : Nat → UInt8
  | 0 => 34
  | 2 => 20
  | 11 => 8
  | 25 => 2
  | 32 => 1
  | 33 => 0x41
  | _ => 0

theorem self_listed_never_ends :
    ¬ (BuildEnds false loopDisk (20, 2048) ∧ CopyEnds false loopDisk (20, 2048)) := by
  rintro ⟨hBuild, -⟩
  have hKids : subdirectories false loopDisk (20, 2048) = [] ++ (20, 2048) :: [] := by decide +kernel
  have hInto : GoesInto false loopDisk (20, 2048) (20, 2048) :=
    ⟨by decide +kernel, [], [], hKids, fun c hc => absurd hc List.not_mem_nil⟩
  exact (wellFormedBelow_of_buildEnds hBuild (20, 2048) .refl).2 (.single hInto)

end Theorem

end UnixOS.Fs.Iso9660
