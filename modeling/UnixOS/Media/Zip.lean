import UnixOS.Fs.PathFiles

/-! # ZIP archives

The archive writer and the two archive readers of `kernel/media/media.c`: one goes over an archive in
memory, the other over an open file. Names are C strings of byte characters and sums of `size_t` do not wrap around.
Every request for memory is granted: `Supply` says what is handed out. A call without a result follows
a pointer to a freed inode, or never ends.
-/

namespace UnixOS.Media

open Fs ByteMemory

def eNoSpc : Int := 28
def eNameTooLong : Int := 36

structure Supply where
  inode : Ramfs → Nat
  block : Nat → Mem
  fresh : ∀ s : Ramfs, s.Good → ¬ s.view.live (inode s)

noncomputable def anySupply : Supply where
  inode s := Classical.epsilon fun a => ¬ s.view.live a
  block _ := fun _ => 0
  fresh _ h := Classical.epsilon_spec h.exists_free

/-! ### Bytes and paths -/

def charOf (b : UInt8) : Char := Char.ofNat b.toNat

def byteOf (c : Char) : UInt8 := UInt8.ofNat c.toNat

def cString (buf : List Char) : List Char := buf.takeWhile (· ≠ '\x00')

def endsInSlash (name : List Char) : Bool := name.getLast? = some '/'

def byteAt (buf : List UInt8) (offset : Nat) : Nat := (buf.getD offset 0).toNat

def mediaZipReadU16 (buf : List UInt8) (offset : Nat) : Nat :=
  byteAt buf offset ||| byteAt buf (offset + 1) <<< 8

def mediaZipReadU32 (buf : List UInt8) (offset : Nat) : Nat :=
  byteAt buf offset ||| byteAt buf (offset + 1) <<< 8 ||| byteAt buf (offset + 2) <<< 16 |||
    byteAt buf (offset + 3) <<< 24

def mediaZipWriteU16 (value : Nat) : List UInt8 :=
  [UInt8.ofNat (value &&& 0xFF), UInt8.ofNat (value >>> 8 &&& 0xFF)]

def mediaZipWriteU32 (value : Nat) : List UInt8 :=
  [UInt8.ofNat (value &&& 0xFF), UInt8.ofNat (value >>> 8 &&& 0xFF), UInt8.ofNat (value >>> 16 &&& 0xFF),
    UInt8.ofNat (value >>> 24 &&& 0xFF)]

def crcBit (crc : UInt32) : UInt32 := if crc &&& 1 ≠ 0 then (crc >>> 1) ^^^ 0xEDB88320 else crc >>> 1

def mediaZipCrc32 (data : List UInt8) : UInt32 :=
  ~~~ data.foldl (fun crc b => crcBit^[8] (crc ^^^ b.toUInt32)) 0xFFFFFFFF

/-- The paths are built in buffers of 256 characters: the base, a slash where it has none, and the name. -/
def joinBuffer (base name : List Char) : List Char :=
  let dst := base.take 255
  let dst := if dst ≠ [] ∧ dst.getLast? ≠ some '/' ∧ dst.length < 255 then dst ++ ['/'] else dst
  let rest := (name.dropWhile (· == '/')).map fun c => if c = '\\' then '/' else c
  dst ++ rest.take (255 - dst.length)

def mediaZipPathJoin (base name : List Char) : Option (List Char) :=
  if joinBuffer base name = [] then none else some (joinBuffer base name)

def mediaEnsureParentDirs (supply : Supply) (s : Ramfs) (path : List Char) : Option Ramfs :=
  (List.range (min path.length 255)).foldlM (fun s i =>
    if 0 < i ∧ path[i]? = some '/' then (s.vfsMkdir (path.take (i + 1)) 0o755 (supply.inode s)).map Prod.fst
    else some s) s

/-! ### Loading a file -/

/-- The loop around `vfs_read`: the first result is an error, or 0. -/
def loadLoop (s : Ramfs) (size : Nat) : Nat → OpenFile → List UInt8 → Option (Int × List UInt8)
  | 0, _, _ => none
  | fuel + 1, f, buf =>
    if buf.length < size then do
      let (f, ret, bytes) ← f.vfsRead s (size - buf.length)
      if ret < 0 then return (ret, buf)
      else if ret = 0 then return (0, buf)
      else loadLoop s size fuel f (buf ++ bytes)
    else some (0, buf)

/-- Opening for reading changes no inode, so the filesystem is not passed on. -/
def mediaLoadFileFromExactPath (supply : Supply) (s : Ramfs) (path : List Char) : Option (Int × List UInt8) := do
  match ← s.vfsOpen path oRdOnly 0 (supply.inode s) with
  | (_, none) => return (-eNoEnt, [])
  | (_, some f) =>
    if f.iSize ≤ 0 then return (-eInval, [])
    else
      let size := toSize f.iSize
      if size = 0 then return (0, [])
      else
        let (ret, buf) ← loadLoop s size (size + 1) f []
        if ret < 0 then return (ret, [])
        else if buf.length ≠ size then return (-eIo, [])
        else return (0, buf)

/-! ### Packing -/

structure MediaZipEntry where
  name : List Char
  data : List UInt8
  crc32 : UInt32

/-- `media_zip_builder_add_file`, where the name is not empty. -/
def mediaZipBuilderAddFile (entries : List MediaZipEntry) (name : List Char) (data : List UInt8) :
    List MediaZipEntry := entries ++ [⟨name, data, mediaZipCrc32 data⟩]

def siblings (s : Ramfs) : Nat → Option Nat → Option (List RamfsInode)
  | 0, _ => none
  | _ + 1, none => some []
  | fuel + 1, some child => do
    let inode ← s.inodes child
    let rest ← siblings s fuel inode.sibling
    return inode :: rest

/-- The names and types that `ramfs_readdir` passes to its callback. -/
def ramfsReaddir (s : Ramfs) (dir : Nat) : Option (List (List Char × UInt32)) := do
  let inode ← s.inodes dir
  if sIsDir inode.mode then
    let children ← siblings s s.walkFuel inode.children
    return (['.'], sIfDir >>> 12) :: (['.', '.'], sIfDir >>> 12) :: children.map fun c : RamfsInode => (c.name, c.mode >>> 12)
  else return []

abbrev PackState := Int × List MediaZipEntry

/-- One call of the callback in the directory at `srcRoot`; `packDir` goes into a directory below. -/
def mediaZipPackTreeCallback (supply : Supply) (s : Ramfs)
    (packDir : List Char → List Char → List MediaZipEntry → Option PackState)
    (srcRoot relRoot : List Char) (walk : PackState) (child : List Char × UInt32) : Option PackState :=
  if walk.1 ≠ 0 ∨ child.1 = [] then some walk
  else if child.1 = ['.'] ∨ child.1 = ['.', '.'] then some walk
  else
    match mediaZipPathJoin srcRoot child.1, mediaZipPathJoin relRoot child.1 with
    | some childSrc, some childRel =>
      if child.2 = 4 then do
        match ← s.vfsOpen childSrc oRdOnly 0 (supply.inode s) with
        | (_, none) => return (-eNoEnt, walk.2)
        | (_, some _) =>
          let (ret, entries) ← packDir childSrc childRel walk.2
          return (if ret ≠ 0 then -eIo else 0, entries)
      else do
        let (ret, data) ← mediaLoadFileFromExactPath supply s childSrc
        if ret ≠ 0 then return (ret, walk.2)
        else return (0, mediaZipBuilderAddFile walk.2 childRel data)
    | _, _ => some (-eNameTooLong, walk.2)

/-- The depth of the recursion is bounded by `fuel`. -/
def mediaZipPackTreeDir (supply : Supply) (s : Ramfs) :
    Nat → List Char → List Char → List MediaZipEntry → Option PackState
  | 0, _, _, _ => none
  | fuel + 1, srcRoot, relRoot, entries =>
    if srcRoot = [] then some (-eInval, entries)
    else do
      match ← s.vfsOpen srcRoot oRdOnly 0 (supply.inode s) with
      | (_, none) => return (-eNoEnt, entries)
      | (_, some dir) =>
        if dir.isDir then
          let children ← ramfsReaddir s dir.privateData
          children.foldlM (mediaZipPackTreeCallback supply s (mediaZipPackTreeDir supply s fuel) srcRoot relRoot)
            (0, entries)
        else return (0, entries)

def localHeaderSig : Nat := 0x04034B50
def centralHeaderSig : Nat := 0x02014B50
def endSig : Nat := 0x06054B50

def localHeader (entry : MediaZipEntry) : List UInt8 :=
  mediaZipWriteU32 localHeaderSig ++ mediaZipWriteU16 20 ++ mediaZipWriteU16 0 ++ mediaZipWriteU16 0 ++
    mediaZipWriteU16 0 ++ mediaZipWriteU16 0 ++ mediaZipWriteU32 entry.crc32.toNat ++
    mediaZipWriteU32 (entry.data.length % 2 ^ 32) ++ mediaZipWriteU32 (entry.data.length % 2 ^ 32) ++
    mediaZipWriteU16 (entry.name.length % 2 ^ 16) ++ mediaZipWriteU16 0

def localRecord (entry : MediaZipEntry) : List UInt8 :=
  localHeader entry ++ entry.name.map byteOf ++ entry.data

def centralRecord (entry : MediaZipEntry) (localHeaderOffset : Nat) : List UInt8 :=
  mediaZipWriteU32 centralHeaderSig ++ mediaZipWriteU16 20 ++ mediaZipWriteU16 20 ++ mediaZipWriteU16 0 ++
    mediaZipWriteU16 0 ++ mediaZipWriteU16 0 ++ mediaZipWriteU16 0 ++ mediaZipWriteU32 entry.crc32.toNat ++
    mediaZipWriteU32 (entry.data.length % 2 ^ 32) ++ mediaZipWriteU32 (entry.data.length % 2 ^ 32) ++
    mediaZipWriteU16 (entry.name.length % 2 ^ 16) ++ mediaZipWriteU16 0 ++ mediaZipWriteU16 0 ++
    mediaZipWriteU16 0 ++ mediaZipWriteU16 0 ++ mediaZipWriteU32 0 ++
    mediaZipWriteU32 (localHeaderOffset % 2 ^ 32) ++ entry.name.map byteOf

def endRecord (count centralDirSize centralDirOffset : Nat) : List UInt8 :=
  mediaZipWriteU32 endSig ++ mediaZipWriteU16 0 ++ mediaZipWriteU16 0 ++ mediaZipWriteU16 (count % 2 ^ 16) ++
    mediaZipWriteU16 (count % 2 ^ 16) ++ mediaZipWriteU32 (centralDirSize % 2 ^ 32) ++
    mediaZipWriteU32 (centralDirOffset % 2 ^ 32) ++ mediaZipWriteU16 0

def centralDirectory (entries : List MediaZipEntry) : List UInt8 :=
  entries.zipIdx.flatMap fun (entry, i) =>
    centralRecord entry ((entries.take i).map fun prev => 30 + prev.name.length + prev.data.length).sum

def archiveOf (entries : List MediaZipEntry) : List UInt8 :=
  let locals := entries.flatMap localRecord
  let central := centralDirectory entries
  locals ++ central ++ endRecord entries.length central.length locals.length

/-- Below a path of 255 characters the path of a child is cut off to that of its parent, and the walk never
comes back. -/
def mediaZipPackTree (supply : Supply) (s : Ramfs) (srcRoot : List Char) : Option (Int × List UInt8) :=
  if srcRoot = [] then some (-eInval, [])
  else do
    let (ret, entries) ← mediaZipPackTreeDir supply s 256 srcRoot [] []
    if ret ≠ 0 then return (-eIo, [])
    else return (0, archiveOf entries)

/-! ### An archive in memory -/

section InMemory

variable {σ : Type}

/-- The loop of `media_zip_foreach`, with the state that its callback works on. A step of no bytes never ends it. -/
def foreachLoop (data : List UInt8) (cb : σ → List Char → List UInt8 → Bool → Option (σ × Int)) :
    Nat → Nat → σ → Option (σ × Int)
  | 0, _, _ => none
  | fuel + 1, offset, st =>
    if offset + 30 ≤ data.length then
      let method := mediaZipReadU16 data (offset + 8)
      let compSize := mediaZipReadU32 data (offset + 18)
      let nameLen := mediaZipReadU16 data (offset + 26)
      let extraLen := mediaZipReadU16 data (offset + 28)
      if mediaZipReadU32 data offset ≠ localHeaderSig then some (st, 0)
      else if method ≠ 0 then some (st, -eIo)
      else if data.length < offset + 30 + nameLen + extraLen + compSize then some (st, -eIo)
      else if 256 ≤ nameLen then some (st, -eNameTooLong)
      else do
        let name := ((data.drop (offset + 30)).take nameLen).map charOf
        let content := (data.drop (offset + 30 + nameLen + extraLen)).take compSize
        let (st, ret) ← cb st (cString name) content (endsInSlash name)
        if ret ≠ 0 then return (st, -eIo)
        -- the step is a `uint32_t`, unlike the end that was checked
        else foreachLoop data cb fuel (offset + (30 + nameLen + extraLen + compSize) % 2 ^ 32) st
    else some (st, 0)

def mediaZipForeach (data : List UInt8) (cb : σ → List Char → List UInt8 → Bool → Option (σ × Int)) (st : σ) :
    Option (σ × Int) :=
  if data.length < 30 then some (st, -eInval) else foreachLoop data cb (data.length + 1) 0 st

end InMemory

def imageInfo : List Char :=
  ['I', 'M', 'A', 'G', 'E', '_', 'I', 'N', 'F', 'O', '.', 't', 'x', 't']

def mediaZipCountCb (count : Nat) (name : List Char) (_data : List UInt8) (isDir : Bool) : Option (Nat × Int) :=
  if isDir then some (count, 0)
  else if name = imageInfo then some (count, 0)
  else some (count + 1, 0)

def mediaZipCountFiles (data : List UInt8) : Option Int := do
  let (count, ret) ← mediaZipForeach data mediaZipCountCb 0
  return if ret ≠ 0 then -1 else count

def mediaZipFindCb (path : List Char) (found : Bool) (name : List Char) (_data : List UInt8) (isDir : Bool) :
    Option (Bool × Int) :=
  if isDir then some (found, 0)
  else if path.dropWhile (· == '/') = [] then some (found, 0)
  else some (found || decide (name = path.dropWhile (· == '/')), 0)

def mediaZipHasEntry (data : List UInt8) (path : List Char) : Option Bool :=
  if data = [] ∨ path = [] then some false
  else do
    let (found, ret) ← mediaZipForeach data (mediaZipFindCb path) false
    return if ret ≠ 0 then false else found

def mediaZipWriteFile (supply : Supply) (s : Ramfs) (path : List Char) (data : List UInt8) :
    Option (Ramfs × Int) := do
  let s ← mediaEnsureParentDirs supply s path
  let (s, _) ← s.vfsUnlink path
  match ← s.vfsOpen path Ramfs.createFlags 0o644 (supply.inode s) with
  | (s, none) => return (s, -eNoEnt)
  | (s, some f) =>
    let (s, _, written) ← if data ≠ [] then f.vfsWrite s data (fun n => some (supply.block n)) else some (s, f, 0)
    if written < 0 then return (s, written)
    else if toSize written ≠ data.length then return (s, -eIo)
    else return (s, 0)

/-- The filesystem, and the two counters of an extraction. -/
structure Extract where
  fs : Ramfs
  copiedFiles : Nat
  failedFiles : Nat

def mediaZipExtractCb (supply : Supply) (root : List Char) (e : Extract) (name : List Char) (data : List UInt8)
    (isDir : Bool) : Option (Extract × Int) :=
  if root = [] ∨ name = [] then some (e, 0)
  else
    match mediaZipPathJoin root name with
    | none => some (e, 0)
    | some fullPath =>
      if isDir then do
        let s ← mediaEnsureParentDirs supply e.fs fullPath
        let (s, _) ← s.vfsMkdir fullPath 0o755 (supply.inode s)
        return ({ e with fs := s }, 0)
      else do
        let (s, ret) ← mediaZipWriteFile supply e.fs fullPath data
        if ret = 0 then return (⟨s, e.copiedFiles + 1, e.failedFiles⟩, 0)
        else return (⟨s, e.copiedFiles, e.failedFiles + 1⟩, 0)

def Extract.result (e : Extract) : Int := if 0 < e.copiedFiles ∧ e.failedFiles = 0 then 0 else -1

def mediaZipExtractToRoot (supply : Supply) (s : Ramfs) (data : List UInt8) (dstRoot : List Char) :
    Option (Extract × Int) :=
  if data = [] ∨ dstRoot = [] then some (⟨s, 0, 0⟩, -eInval)
  else do
    let (e, ret) ← mediaZipForeach data (mediaZipExtractCb supply dstRoot) ⟨s, 0, 0⟩
    return (e, if ret ≠ 0 then -eIo else e.result)

/-! ### An archive in a file -/

def readExactLoop (s : Ramfs) (size : Nat) : Nat → OpenFile → List UInt8 → Option (OpenFile × Option (List UInt8))
  | 0, _, _ => none
  | fuel + 1, f, buf =>
    if buf.length < size then do
      let (f, readLen, bytes) ← f.vfsRead s (size - buf.length)
      if readLen ≤ 0 then return (f, none) else readExactLoop s size fuel f (buf ++ bytes)
    else some (f, some buf)

/-- The bytes that were read, or `none` for `-EIO`. -/
def mediaZipReadExact (s : Ramfs) (f : OpenFile) (size : Nat) : Option (OpenFile × Option (List UInt8)) :=
  readExactLoop s size (size + 1) f []

def mediaZipStreamSkip (f : OpenFile) (size : Nat) : OpenFile × Int :=
  if size = 0 then (f, 0)
  else
    let (f, pos) := f.vfsLseekCur size
    (f, if pos < 0 then -eIo else 0)

section Streaming

variable {σ : Type}

abbrev StreamCb (σ : Type) :=
  Ramfs → σ → OpenFile → List Char → Nat → Bool → Option (Ramfs × σ × OpenFile × Int)

def fileForeachLoop (cb : StreamCb σ) : Nat → Ramfs → OpenFile → σ → Option (Ramfs × σ × Int)
  | 0, _, _, _ => none
  | fuel + 1, s, archive, st => do
    match ← mediaZipReadExact s archive 30 with
    | (_, none) => return (s, st, 0)
    | (archive, some header) =>
      let flags := mediaZipReadU16 header 6
      let method := mediaZipReadU16 header 8
      let compSize := mediaZipReadU32 header 18
      let nameLen := mediaZipReadU16 header 26
      let extraLen := mediaZipReadU16 header 28
      if mediaZipReadU32 header 0 ≠ localHeaderSig then return (s, st, 0)
      else if method ≠ 0 ∨ flags &&& 0x08 ≠ 0 then return (s, st, -eIo)
      else if 256 ≤ nameLen then return (s, st, -eNameTooLong)
      else
        match ← mediaZipReadExact s archive nameLen with
        | (_, none) => return (s, st, -eIo)
        | (archive, some bytes) =>
          let name := bytes.map charOf
          let (archive, ret) := mediaZipStreamSkip archive extraLen
          if ret ≠ 0 then return (s, st, -eIo)
          else
            let (s, st, archive, ret) ← cb s st archive (cString name) compSize (endsInSlash name)
            if ret ≠ 0 then return (s, st, ret) else fileForeachLoop cb fuel s archive st

def mediaZipFileForeach (supply : Supply) (s : Ramfs) (archivePath : List Char) (cb : StreamCb σ) (st : σ) :
    Option (Ramfs × σ × Int) :=
  if archivePath = [] then some (s, st, -eInval)
  else do
    match ← s.vfsOpen archivePath oRdOnly 0 (supply.inode s) with
    | (s, none) => return (s, st, -eNoEnt)
    | (s, some archive) => fileForeachLoop cb (toSize archive.iSize + 1) s archive st

end Streaming

def mediaZipStreamCountCb : StreamCb Nat := fun s count archive name compSize isDir =>
  let count := if ¬ isDir ∧ name ≠ imageInfo then count + 1 else count
  let (archive, ret) := mediaZipStreamSkip archive compSize
  some (s, count, archive, ret)

def mediaZipCountFileEntries (supply : Supply) (s : Ramfs) (archivePath : List Char) : Option Int := do
  let (_, count, ret) ← mediaZipFileForeach supply s archivePath mediaZipStreamCountCb 0
  return if ret ≠ 0 then -1 else count

def mediaZipStreamFindCb (path : List Char) : StreamCb Bool := fun s found archive name compSize isDir =>
  let found := if isDir then found else found || decide (name = path.dropWhile (· == '/'))
  let (archive, ret) := mediaZipStreamSkip archive compSize
  some (s, found, archive, ret)

def mediaZipFileHasEntry (supply : Supply) (s : Ramfs) (archivePath path : List Char) : Option Bool :=
  if archivePath = [] ∨ path = [] then some false
  else do
    let (_, found, ret) ← mediaZipFileForeach supply s archivePath (mediaZipStreamFindCb path) false
    return if ret ≠ 0 then false else found

def copyLoop (supply : Supply) : Nat → Ramfs → OpenFile → OpenFile → Nat → Option (Ramfs × OpenFile × Int)
  | 0, _, _, _, _ => none
  | fuel + 1, s, archive, out, remaining =>
    if remaining = 0 then some (s, archive, 0)
    else do
      let chunk := if 512 < remaining then 512 else remaining
      match ← mediaZipReadExact s archive chunk with
      | (archive, none) => return (s, archive, -eIo)
      | (archive, some buf) =>
        let (s, out, written) ← out.vfsWrite s buf fun n => some (supply.block n)
        if written < 0 ∨ toSize written ≠ chunk then
          return (s, if chunk < remaining then (mediaZipStreamSkip archive (remaining - chunk)).1 else archive,
            -eNoSpc)
        else copyLoop supply fuel s archive out (remaining - chunk)

def mediaZipStreamWriteFile (supply : Supply) (s : Ramfs) (archive : OpenFile) (path : List Char) (size : Nat) :
    Option (Ramfs × OpenFile × Int) := do
  let s ← mediaEnsureParentDirs supply s path
  let (s, _) ← s.vfsUnlink path
  match ← s.vfsOpen path Ramfs.createFlags 0o644 (supply.inode s) with
  | (s, none) =>
    let (archive, ret) := mediaZipStreamSkip archive size
    return (s, archive, if ret ≠ 0 then -eIo else -eNoEnt)
  | (s, some out) => copyLoop supply (size + 1) s archive out size

def mediaZipStreamExtractCb (supply : Supply) (root : List Char) : StreamCb (Nat × Nat) :=
  fun s (copied, failed) archive name compSize isDir =>
    let skip (s : Ramfs) : Option (Ramfs × (Nat × Nat) × OpenFile × Int) :=
      let (archive, ret) := mediaZipStreamSkip archive compSize
      some (s, (copied, failed), archive, ret)
    if root = [] ∨ name = [] then skip s
    else
      match mediaZipPathJoin root name with
      | none => skip s
      | some fullPath =>
        if isDir then do
          let s ← mediaEnsureParentDirs supply s fullPath
          let (s, _) ← s.vfsMkdir fullPath 0o755 (supply.inode s)
          skip s
        else do
          let (s, archive, ret) ← mediaZipStreamWriteFile supply s archive fullPath compSize
          let counts := if ret = 0 then (copied + 1, failed) else (copied, failed + 1)
          return (s, counts, archive, if ret = -eIo then -eIo else 0)

def mediaZipExtractFileToRoot (supply : Supply) (s : Ramfs) (archivePath dstRoot : List Char) :
    Option (Extract × Int) :=
  if archivePath = [] ∨ dstRoot = [] then some (⟨s, 0, 0⟩, -eInval)
  else do
    let (s, (copied, failed), ret) ←
      mediaZipFileForeach supply s archivePath (mediaZipStreamExtractCb supply dstRoot) (0, 0)
    let e : Extract := ⟨s, copied, failed⟩
    return (e, if ret ≠ 0 then -eIo else e.result)

end UnixOS.Media
