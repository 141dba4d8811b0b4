import Mathlib.Algebra.BigOperators.Group.List.Basic
import Mathlib.Algebra.GroupWithZero.Nat
import UnixOS.Media.ZipRecords

/-! # The layout of an archive

The loops of `media_zip_pack_tree` that write the archive into its buffer, byte by byte at a running offset. They fill
it exactly, and what lies where the fields say is what the reader finds there.
-/

namespace UnixOS.Media

open Fs ByteMemory

/-! ### Writing at an offset -/

structure Encoder where
  archive : Nat → UInt8
  offset : Nat
  written : List Nat

namespace Encoder

def put (w : Encoder) (b : UInt8) : Encoder :=
  ⟨Function.update w.archive w.offset b, w.offset + 1, w.written ++ [w.offset]⟩

def putAll (w : Encoder) (bytes : List UInt8) : Encoder := bytes.foldl put w

end Encoder

/-- The first loop of `media_zip_pack_tree`. -/
def totalSize (entries : List MediaZipEntry) : Nat :=
  entries.foldl (fun total entry =>
    total + (30 + entry.name.length + entry.data.length) + (46 + entry.name.length)) 22

def encodeLocals (entries : List MediaZipEntry) (w : Encoder) : Encoder :=
  entries.foldl (fun w entry =>
    ((w.putAll (localHeader entry)).putAll (entry.name.map byteOf)).putAll entry.data) w

/-- The inner loop, up to the entry `i`. -/
def dataOffset (entries : List MediaZipEntry) (i : Nat) : Nat :=
  (entries.take i).foldl (fun offset prev => offset + (30 + prev.name.length + prev.data.length)) 0

def encodeCentral (entries : List MediaZipEntry) (w : Encoder) : Encoder :=
  entries.zipIdx.foldl (fun w (entry, i) => w.putAll (centralRecord entry (dataOffset entries i))) w

def encodeArchive (entries : List MediaZipEntry) (archive : Nat → UInt8) : Encoder :=
  let w := encodeLocals entries ⟨archive, 0, []⟩
  let centralDirOffset := w.offset
  let w := encodeCentral entries w
  w.putAll (endRecord entries.length (w.offset - centralDirOffset) centralDirOffset)

/-! ### What is written -/

structure Wrote (bytes : List UInt8) (w : Encoder) : Prop where
  offset : w.offset = bytes.length
  written : w.written = List.range bytes.length
  holds : (List.range bytes.length).map w.archive = bytes

section Wrote

variable {w : Encoder} {bytes : List UInt8}

theorem Wrote.put (h : Wrote bytes w) (b : UInt8) : Wrote (bytes ++ [b]) (w.put b) := by
  have hLen : (bytes ++ [b]).length = bytes.length + 1 := List.length_append
  constructor
  · rw [hLen, ← h.offset]
    rfl
  · rw [hLen, List.range_succ, ← h.written, ← h.offset]
    rfl
  · rw [hLen, List.range_succ, List.map_append, List.map_singleton]
    congr 1
    · refine Eq.trans (List.map_congr_left fun i hi => ?_) h.holds
      have hLt := List.mem_range.mp hi
      exact Function.update_of_ne (by rw [h.offset]; omega) _ _
    · rw [← h.offset]
      exact congrArg (fun x => [x]) (Function.update_self _ _ _)

theorem Wrote.putAll (h : Wrote bytes w) (more : List UInt8) : Wrote (bytes ++ more) (w.putAll more) := by
  induction more generalizing w bytes with
  | nil => rwa [List.append_nil]
  | cons b more ih =>
    rw [List.append_cons]
    exact ih (h.put b)

theorem Wrote.encodeLocals (h : Wrote bytes w) (entries : List MediaZipEntry) :
    Wrote (bytes ++ entries.flatMap localRecord) (encodeLocals entries w) := by
  induction entries generalizing w bytes with
  | nil =>
    rw [List.flatMap_nil, List.append_nil]
    exact h
  | cons e entries ih =>
    have hRecord := ((h.putAll (localHeader e)).putAll (e.name.map byteOf)).putAll e.data
    rw [List.flatMap_cons, ← List.append_assoc, localRecord, ← List.append_assoc, ← List.append_assoc]
    exact ih hRecord

theorem Wrote.foldl {α : Type} (h : Wrote bytes w) (record : α → List UInt8) (items : List α) :
    Wrote (bytes ++ items.flatMap record) (items.foldl (fun w item => w.putAll (record item)) w) := by
  induction items generalizing w bytes with
  | nil =>
    rw [List.flatMap_nil, List.append_nil]
    exact h
  | cons item items ih =>
    rw [List.flatMap_cons, ← List.append_assoc]
    exact ih (h.putAll (record item))

end Wrote

theorem foldl_add_sum {α : Type} (f : α → Nat) (items : List α) (start : Nat) :
    items.foldl (fun total item => total + f item) start = start + (items.map f).sum := by
  induction items generalizing start with
  | nil => rfl
  | cons item items ih => rw [List.foldl_cons, ih, List.map_cons, List.sum_cons, Nat.add_assoc]

theorem dataOffset_eq (entries : List MediaZipEntry) (i : Nat) :
    dataOffset entries i = ((entries.take i).map fun prev => 30 + prev.name.length + prev.data.length).sum := by
  rw [dataOffset, foldl_add_sum, Nat.zero_add]

theorem encodeArchive_wrote (entries : List MediaZipEntry) (archive : Nat → UInt8) :
    Wrote (archiveOf entries) (encodeArchive entries archive) := by
  have hEmpty : Wrote [] ⟨archive, 0, []⟩ := ⟨rfl, rfl, rfl⟩
  have hLocals := hEmpty.encodeLocals entries
  rw [List.nil_append] at hLocals
  have hCentral := hLocals.foldl (fun item : MediaZipEntry × Nat => centralRecord item.1 (dataOffset entries item.2))
    entries.zipIdx
  have hDirectory : entries.zipIdx.flatMap (fun item => centralRecord item.1 (dataOffset entries item.2)) =
      centralDirectory entries := by
    simp only [dataOffset_eq]
    rfl
  rw [hDirectory] at hCentral
  have hEnd := hCentral.putAll (endRecord entries.length (centralDirectory entries).length (entries.flatMap localRecord).length)
  have hSize : (encodeCentral entries (encodeLocals entries ⟨archive, 0, []⟩)).offset -
      (encodeLocals entries ⟨archive, 0, []⟩).offset = (centralDirectory entries).length := by
    rw [show (encodeCentral entries (encodeLocals entries ⟨archive, 0, []⟩)).offset = _ from hCentral.offset,
      hLocals.offset, List.length_append, Nat.add_sub_cancel_left]
  unfold encodeArchive
  dsimp only
  rw [hSize, hLocals.offset]
  exact hEnd

/-! ### Where the records lie -/

def recordSize (entry : MediaZipEntry) : Nat := 30 + entry.name.length + entry.data.length

def localOffset (entries : List MediaZipEntry) (i : Nat) : Nat := ((entries.take i).map recordSize).sum

def directoryOffset (entries : List MediaZipEntry) : Nat := (entries.map recordSize).sum

def centralOffset (entries : List MediaZipEntry) (i : Nat) : Nat :=
  directoryOffset entries + ((entries.take i).map fun entry => 46 + entry.name.length).sum

def directorySize (entries : List MediaZipEntry) : Nat := (entries.map fun entry => 46 + entry.name.length).sum

section Places

variable {E : List MediaZipEntry} {e : MediaZipEntry} {i : Nat}

theorem length_locals (L : List MediaZipEntry) : (L.flatMap localRecord).length = (L.map recordSize).sum := by
  rw [List.length_flatMap]
  exact congrArg List.sum (List.map_congr_left fun e _ => length_localRecord e)

theorem length_centrals (f : Nat → Nat) (L : List MediaZipEntry) (n : Nat) :
    ((L.zipIdx n).flatMap fun item => centralRecord item.1 (f item.2)).length =
      (L.map fun e => 46 + e.name.length).sum := by
  induction L generalizing n with
  | nil => rfl
  | cons e L ih =>
    rw [List.zipIdx_cons, List.flatMap_cons, List.length_append, length_centralRecord, ih, List.map_cons, List.sum_cons]

theorem centralDirectory_eq (E : List MediaZipEntry) :
    centralDirectory E = E.zipIdx.flatMap fun item => centralRecord item.1 (localOffset E item.2) :=
  rfl

theorem length_centralDirectory (E : List MediaZipEntry) : (centralDirectory E).length = directorySize E :=
  length_centrals (localOffset E) E 0

theorem length_archiveOf (E : List MediaZipEntry) : (archiveOf E).length = directoryOffset E + directorySize E + 22 := by
  rw [archiveOf, List.length_append, List.length_append, length_locals, length_centralDirectory]
  rfl

theorem totalSize_eq (E : List MediaZipEntry) : totalSize E = (archiveOf E).length := by
  have hFold := foldl_add_sum (fun e : MediaZipEntry => recordSize e + (46 + e.name.length)) E 22
  rw [List.sum_map_add] at hFold
  have hTotal : totalSize E = E.foldl (fun total e => total + (recordSize e + (46 + e.name.length))) 22 := by
    simp only [totalSize, recordSize, Nat.add_assoc]
  rw [hTotal, hFold, length_archiveOf, directoryOffset, directorySize]
  omega

theorem archive_local (h : E[i]? = some e) :
    ∃ front rest, archiveOf E = front ++ (localRecord e ++ rest) ∧ front.length = localOffset E i := by
  obtain ⟨hi, rfl⟩ := List.getElem?_eq_some_iff.mp h
  have hSplit : E.flatMap localRecord = (E.take i).flatMap localRecord ++ (localRecord E[i] ++
      (E.drop (i + 1)).flatMap localRecord) := by
    rw [← List.flatMap_cons, List.getElem_cons_drop, ← List.flatMap_append, List.take_append_drop]
  refine ⟨(E.take i).flatMap localRecord, (E.drop (i + 1)).flatMap localRecord ++ (centralDirectory E ++
    endRecord E.length (centralDirectory E).length (E.flatMap localRecord).length), ?_, length_locals _⟩
  rw [archiveOf, hSplit]
  simp only [List.append_assoc]

theorem archive_central (h : E[i]? = some e) :
    ∃ front rest, archiveOf E = front ++ (centralRecord e (localOffset E i) ++ rest) ∧
      front.length = centralOffset E i := by
  obtain ⟨hi, rfl⟩ := List.getElem?_eq_some_iff.mp h
  have hSplit : E.zipIdx = (E.take i).zipIdx ++ (E[i], i) :: (E.drop (i + 1)).zipIdx (i + 1) := by
    conv_lhs => rw [← List.take_append_drop i E, List.zipIdx_append, ← List.getElem_cons_drop hi, List.zipIdx_cons]
    rw [List.length_take, Nat.min_eq_left hi.le, Nat.zero_add]
  refine ⟨E.flatMap localRecord ++ (E.take i).zipIdx.flatMap (fun item => centralRecord item.1 (localOffset E item.2)),
    ((E.drop (i + 1)).zipIdx (i + 1)).flatMap (fun item => centralRecord item.1 (localOffset E item.2)) ++
    endRecord E.length (centralDirectory E).length (E.flatMap localRecord).length, ?_, ?_⟩
  · rw [archiveOf, centralDirectory_eq, hSplit, List.flatMap_append, List.flatMap_cons]
    simp only [List.append_assoc]
  · rw [List.length_append, length_locals, length_centrals]
    rfl

theorem archive_end (E : List MediaZipEntry) :
    ∃ front, archiveOf E = front ++ (endRecord E.length (directorySize E) (directoryOffset E) ++ []) ∧
      front.length = directoryOffset E + directorySize E := by
  refine ⟨E.flatMap localRecord ++ centralDirectory E, ?_, ?_⟩
  · rw [archiveOf, length_locals, length_centralDirectory, List.append_nil]
    rfl
  · rw [List.length_append, length_locals, length_centralDirectory]
    rfl

end Places

/-! ### What the fields say -/

section Fields

variable {E : List MediaZipEntry} {e : MediaZipEntry} {i k n m : Nat} {D front rest : List UInt8}

/-- The fields that a local header and a central record have in common, at the place `off` of the archive. -/
structure FieldsAt (D : List UInt8) (off : Nat) (e : MediaZipEntry) : Prop where
  crc : mediaZipReadU32 D off = e.crc32.toNat
  compSize : mediaZipReadU32 D (off + 4) = e.data.length
  size : mediaZipReadU32 D (off + 8) = e.data.length
  nameLen : mediaZipReadU16 D (off + 12) = e.name.length

structure RecordsMatch (D : List UInt8) (E : List MediaZipEntry) (i : Nat) (e : MediaZipEntry) : Prop where
  localSig : mediaZipReadU32 D (localOffset E i) = localHeaderSig
  centralSig : mediaZipReadU32 D (centralOffset E i) = centralHeaderSig
  offset : mediaZipReadU32 D (centralOffset E i + 42) = localOffset E i
  localFields : FieldsAt D (localOffset E i + 14) e
  centralFields : FieldsAt D (centralOffset E i + 16) e
  localName : (D.drop (localOffset E i + 30)).take e.name.length = e.name.map byteOf
  content : (D.drop (localOffset E i + 30 + e.name.length)).take e.data.length = e.data
  centralName : (D.drop (centralOffset E i + 46)).take e.name.length = e.name.map byteOf

structure EndMatches (D : List UInt8) (E : List MediaZipEntry) : Prop where
  sig : mediaZipReadU32 D (directoryOffset E + directorySize E) = endSig
  diskCount : mediaZipReadU16 D (directoryOffset E + directorySize E + 8) = E.length
  count : mediaZipReadU16 D (directoryOffset E + directorySize E + 10) = E.length
  size : mediaZipReadU32 D (directoryOffset E + directorySize E + 12) = directorySize E
  offset : mediaZipReadU32 D (directoryOffset E + directorySize E + 16) = directoryOffset E
  ends : D.length = directoryOffset E + directorySize E + 22

theorem fieldsAt_append (h : FieldsAt rest k e) : FieldsAt (front ++ rest) (front.length + k) e := by
  constructor
  · rw [readU32_append, h.crc]
  · rw [Nat.add_assoc, readU32_append, h.compSize]
  · rw [Nat.add_assoc, readU32_append, h.size]
  · rw [Nat.add_assoc, readU16_append, h.nameLen]

theorem drop_take_append (front part rest : List UInt8) : ((front ++ (part ++ rest)).drop front.length).take part.length = part := by
  rw [List.drop_left, List.take_left]

theorem local_fields (hName : e.name.length < 256) (hData : e.data.length < 2 ^ 32) (rest : List UInt8) :
    FieldsAt (localHeader e ++ rest) 14 e := by
  have hMod : e.name.length % 2 ^ 16 = e.name.length := Nat.mod_eq_of_lt (by omega)
  constructor
  · exact readU32_field e.crc32.toNat_lt rfl
  · exact (readU32_field (Nat.mod_lt _ (by decide)) rfl).trans (Nat.mod_eq_of_lt hData)
  · exact (readU32_field (Nat.mod_lt _ (by decide)) rfl).trans (Nat.mod_eq_of_lt hData)
  · exact (readU16_field (Nat.mod_lt _ (by decide)) rfl).trans hMod

theorem central_fields (hName : e.name.length < 256) (hData : e.data.length < 2 ^ 32) (hk : k < 2 ^ 32) (rest : List UInt8) :
    mediaZipReadU32 (centralHeader e k ++ rest) 0 = centralHeaderSig ∧
      mediaZipReadU32 (centralHeader e k ++ rest) 42 = k ∧ FieldsAt (centralHeader e k ++ rest) 16 e := by
  have hMod : e.name.length % 2 ^ 16 = e.name.length := Nat.mod_eq_of_lt (by omega)
  refine ⟨readU32_field (by decide) rfl, (readU32_field (Nat.mod_lt _ (by decide)) rfl).trans (Nat.mod_eq_of_lt hk), ?_⟩
  constructor
  · exact readU32_field e.crc32.toNat_lt rfl
  · exact (readU32_field (Nat.mod_lt _ (by decide)) rfl).trans (Nat.mod_eq_of_lt hData)
  · exact (readU32_field (Nat.mod_lt _ (by decide)) rfl).trans (Nat.mod_eq_of_lt hData)
  · exact (readU16_field (Nat.mod_lt _ (by decide)) rfl).trans hMod

theorem end_fields (hCount : n < 2 ^ 16) (hSize : m < 2 ^ 32) (hOffset : k < 2 ^ 32) :
    mediaZipReadU32 (endRecord n m k ++ rest) 0 = endSig ∧ mediaZipReadU16 (endRecord n m k ++ rest) 8 = n ∧
      mediaZipReadU16 (endRecord n m k ++ rest) 10 = n ∧ mediaZipReadU32 (endRecord n m k ++ rest) 12 = m ∧
      mediaZipReadU32 (endRecord n m k ++ rest) 16 = k :=
  ⟨readU32_field (by decide) rfl, (readU16_field (Nat.mod_lt _ (by decide)) rfl).trans (Nat.mod_eq_of_lt hCount),
    (readU16_field (Nat.mod_lt _ (by decide)) rfl).trans (Nat.mod_eq_of_lt hCount),
    (readU32_field (Nat.mod_lt _ (by decide)) rfl).trans (Nat.mod_eq_of_lt hSize),
    (readU32_field (Nat.mod_lt _ (by decide)) rfl).trans (Nat.mod_eq_of_lt hOffset)⟩

end Fields

/-- An entry of the builder: a name of 1 to 255 bytes without a NUL. -/
structure BuilderEntry (e : MediaZipEntry) : Prop where
  ne_nil : e.name ≠ []
  short : e.name.length ≤ 255
  nul : '\x00' ∉ e.name
  byte : ∀ c ∈ e.name, c.toNat < 256

/-- The archive of `E` in its buffer: every place is written once and none outside, the reader calls its callback for each
entry in their order, and ends at the central directory, whose records and end record describe what is there. -/
structure ArchiveLayout (E : List MediaZipEntry) (w : Encoder) : Prop where
  offset : w.offset = totalSize E
  written : w.written = List.range (totalSize E)
  calls : ∀ (σ : Type) (cb : σ → List Char → List UInt8 → Bool → Option (σ × Int)) (st : σ),
    mediaZipForeach ((List.range (totalSize E)).map w.archive) cb st = callEach cb E st
  directory : mediaZipReadU32 ((List.range (totalSize E)).map w.archive) (directoryOffset E) = centralHeaderSig
  records : ∀ i e, E[i]? = some e → RecordsMatch ((List.range (totalSize E)).map w.archive) E i e
  ending : EndMatches ((List.range (totalSize E)).map w.archive) E

section Layout

variable {E : List MediaZipEntry} {e : MediaZipEntry} {i : Nat}

theorem BuilderEntry.sized (h : BuilderEntry e) (hRecord : recordSize e < 2 ^ 32) : Sized e :=
  ⟨h.ne_nil, h.nul, h.byte, Nat.lt_succ_of_le h.short, hRecord⟩

theorem recordsMatch (h : BuilderEntry e) (hTotal : (archiveOf E).length < 2 ^ 32) (hi : E[i]? = some e) :
    RecordsMatch (archiveOf E) E i e := by
  obtain ⟨front, rest, hLocal, hFront⟩ := archive_local hi
  obtain ⟨front', rest', hCentral, hFront'⟩ := archive_central hi
  have hShort : e.name.length < 256 := Nat.lt_succ_of_le h.short
  have hLen := congrArg List.length hLocal
  rw [List.length_append, List.length_append, length_localRecord, hFront] at hLen
  have hData : e.data.length < 2 ^ 32 := by omega
  have hParts : archiveOf E = front ++ (localHeader e ++ (e.name.map byteOf ++ (e.data ++ rest))) := by
    rw [hLocal, localRecord]
    simp only [List.append_assoc]
  have hParts' : archiveOf E = front' ++ (centralHeader e (localOffset E i) ++ (e.name.map byteOf ++ rest')) := by
    rw [hCentral, centralRecord_eq, List.append_assoc]
  obtain ⟨hSig, hOffset, hFields⟩ := central_fields hShort hData (k := localOffset E i) (by omega) (e.name.map byteOf ++ rest')
  have hHeader : (front ++ localHeader e).length = localOffset E i + 30 := by
    rw [List.length_append, hFront, length_localHeader]
  have hNamed : (front ++ localHeader e ++ e.name.map byteOf).length = localOffset E i + 30 + e.name.length := by
    rw [List.length_append, hHeader, List.length_map]
  have hHeader' : (front' ++ centralHeader e (localOffset E i)).length = centralOffset E i + 46 := by
    rw [List.length_append, hFront', length_centralHeader]
  constructor
  · rw [hParts, ← hFront]
    exact (readU32_append front _ 0).trans (readU32_field (by decide) rfl)
  · rw [hParts', ← hFront']
    exact (readU32_append front' _ 0).trans hSig
  · rw [hParts', ← hFront', readU32_append, hOffset]
  · rw [hParts, ← hFront]
    exact fieldsAt_append (local_fields hShort hData _)
  · rw [hParts', ← hFront']
    exact fieldsAt_append hFields
  · rw [hParts, ← List.append_assoc, ← hHeader]
    exact List.length_map byteOf ▸ drop_take_append _ _ _
  · rw [hParts, ← List.append_assoc, ← List.append_assoc, ← hNamed]
    exact drop_take_append _ _ _
  · rw [hParts', ← List.append_assoc, ← hHeader']
    exact List.length_map byteOf ▸ drop_take_append _ _ _

theorem endMatches (hCount : E.length < 65536) (hTotal : (archiveOf E).length < 2 ^ 32) : EndMatches (archiveOf E) E := by
  obtain ⟨front, hEnd, hFront⟩ := archive_end E
  have hLen := length_archiveOf E
  obtain ⟨hSig, hDisk, hEntries, hSize, hOffset⟩ := @end_fields (directoryOffset E) E.length (directorySize E) []
    hCount (by omega) (by omega)
  constructor
  · rw [hEnd, ← hFront]
    exact (readU32_append front _ 0).trans hSig
  · rw [hEnd, ← hFront, readU16_append, hDisk]
  · rw [hEnd, ← hFront, readU16_append, hEntries]
  · rw [hEnd, ← hFront, readU32_append, hSize]
  · rw [hEnd, ← hFront, readU32_append, hOffset]
  · exact hLen

/-- The loops of `media_zip_pack_tree` lay out an archive that says what is in it. -/
theorem encodeArchive_layout (E : List MediaZipEntry) (hE : E ≠ []) (hCount : E.length < 65536)
    (hEntries : ∀ e ∈ E, BuilderEntry e) (hTotal : totalSize E < 2 ^ 32) (archive : Nat → UInt8) :
    ArchiveLayout E (encodeArchive E archive) := by
  have hWrote := encodeArchive_wrote E archive
  have hHolds : (List.range (totalSize E)).map (encodeArchive E archive).archive = archiveOf E := by
    rw [totalSize_eq, hWrote.holds]
  have hSmall : (archiveOf E).length < 2 ^ 32 := totalSize_eq E ▸ hTotal
  have hRecords : ∀ i e, E[i]? = some e → RecordsMatch (archiveOf E) E i e := fun i e hi =>
    recordsMatch (hEntries e (List.mem_of_getElem? hi)) hSmall hi
  have hSized : ∀ e ∈ E, Sized e := by
    intro e he
    obtain ⟨i, hi⟩ := List.mem_iff_getElem?.mp he
    obtain ⟨front, rest, hLocal, -⟩ := archive_local hi
    have hLen := congrArg List.length hLocal
    rw [List.length_append, List.length_append, length_localRecord] at hLen
    exact (hEntries e he).sized (by rw [recordSize]; omega)
  constructor
  · rw [hWrote.offset, totalSize_eq]
  · rw [hWrote.written, totalSize_eq]
  · intro σ cb st
    rw [hHolds, foreach_archiveOf hE hSized]
  · obtain ⟨e, L, rfl⟩ := List.exists_cons_of_ne_nil hE
    rw [hHolds]
    exact (hRecords 0 e rfl).centralSig
  · rw [hHolds]
    exact hRecords
  · rw [hHolds]
    exact endMatches hCount hSmall

theorem encodeArchive_layout_two : ArchiveLayout [⟨['f'], [7], mediaZipCrc32 [7]⟩, ⟨['g', '/'], [], mediaZipCrc32 []⟩]
    (encodeArchive [⟨['f'], [7], mediaZipCrc32 [7]⟩, ⟨['g', '/'], [], mediaZipCrc32 []⟩] fun _ => 0) := by
  refine encodeArchive_layout _ (List.cons_ne_nil _ _) (by decide) ?_ (by decide) _
  simp only [List.forall_mem_cons]
  exact ⟨⟨by decide, by decide, by decide, List.forall_mem_singleton.mpr (by decide)⟩,
    ⟨by decide, by decide, by decide, List.forall_mem_cons.mpr ⟨by decide, List.forall_mem_singleton.mpr (by decide)⟩⟩,
    List.forall_mem_nil _⟩

end Layout

end UnixOS.Media
