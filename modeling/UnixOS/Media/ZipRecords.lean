import UnixOS.Media.ZipReaders

/-! # Reading back what was written

Numbers and names survive the archive, so the reader finds each local record where the writer put it, and
stops at the central directory.
-/

namespace UnixOS.Media

open Fs ByteMemory Ramfs

/-! ### Numbers and records -/

theorem toNat_byte (v k : Nat) : (UInt8.ofNat (v >>> k &&& 0xFF)).toNat = v / 2 ^ k % 256 := by
  rw [UInt8.toNat_ofNat', Nat.shiftRight_eq_div_pow, show (0xFF : Nat) = 2 ^ 8 - 1 from rfl,
    Nat.and_two_pow_sub_one_eq_mod]
  simp

theorem or_shiftLeft {x y k : Nat} (hx : x < 2 ^ k) : x ||| y <<< k = x + y * 2 ^ k := by
  rw [Nat.or_comm, ← Nat.shiftLeft_add_eq_or_of_lt hx, Nat.shiftLeft_eq, Nat.add_comm]

theorem readU16_eq (buf : List UInt8) (off : Nat) :
    mediaZipReadU16 buf off = byteAt buf off + byteAt buf (off + 1) * 2 ^ 8 :=
  or_shiftLeft (UInt8.toNat_lt _)

theorem byteAt_lt (buf : List UInt8) (off : Nat) : byteAt buf off < 256 := UInt8.toNat_lt _

theorem readU32_eq (buf : List UInt8) (off : Nat) :
    mediaZipReadU32 buf off = byteAt buf off + byteAt buf (off + 1) * 2 ^ 8 + byteAt buf (off + 2) * 2 ^ 16 +
      byteAt buf (off + 3) * 2 ^ 24 := by
  have h0 := byteAt_lt buf off
  have h1 := byteAt_lt buf (off + 1)
  have h2 := byteAt_lt buf (off + 2)
  rw [mediaZipReadU32, or_shiftLeft (k := 8) h0, or_shiftLeft (k := 16) (by omega),
    or_shiftLeft (k := 24) (by omega)]

theorem readU32_lt (buf : List UInt8) (off : Nat) : mediaZipReadU32 buf off < 2 ^ 32 := by
  have h0 := byteAt_lt buf off
  have h1 := byteAt_lt buf (off + 1)
  have h2 := byteAt_lt buf (off + 2)
  have h3 := byteAt_lt buf (off + 3)
  rw [readU32_eq]
  omega

theorem readU16_write {v : Nat} (hv : v < 2 ^ 16) : mediaZipReadU16 (mediaZipWriteU16 v) 0 = v := by
  have h0 : byteAt (mediaZipWriteU16 v) 0 = v / 2 ^ 0 % 256 := toNat_byte v 0
  have h1 : byteAt (mediaZipWriteU16 v) 1 = v / 2 ^ 8 % 256 := toNat_byte v 8
  rw [readU16_eq, h0, h1]
  omega

theorem readU32_write {v : Nat} (hv : v < 2 ^ 32) : mediaZipReadU32 (mediaZipWriteU32 v) 0 = v := by
  have h0 : byteAt (mediaZipWriteU32 v) 0 = v / 2 ^ 0 % 256 := toNat_byte v 0
  have h1 : byteAt (mediaZipWriteU32 v) 1 = v / 2 ^ 8 % 256 := toNat_byte v 8
  have h2 : byteAt (mediaZipWriteU32 v) 2 = v / 2 ^ 16 % 256 := toNat_byte v 16
  have h3 : byteAt (mediaZipWriteU32 v) 3 = v / 2 ^ 24 % 256 := toNat_byte v 24
  rw [readU32_eq, h0, h1, h2, h3]
  omega

theorem readU16_field {buf : List UInt8} {v k : Nat} (hv : v < 2 ^ 16)
    (h : (buf.drop k).take 2 = mediaZipWriteU16 v) : mediaZipReadU16 buf k = v := by
  have hBytes : ∀ j < 2, byteAt buf (k + j) = byteAt (mediaZipWriteU16 v) j := by
    intro j hj
    rw [← h, byteAt_window hj]
  rw [← readU16_write hv, mediaZipReadU16, mediaZipReadU16, ← hBytes 0 (by decide), ← hBytes 1 (by decide)]
  rfl

theorem readU32_field {buf : List UInt8} {v k : Nat} (hv : v < 2 ^ 32)
    (h : (buf.drop k).take 4 = mediaZipWriteU32 v) : mediaZipReadU32 buf k = v := by
  have hBytes : ∀ j < 4, byteAt buf (k + j) = byteAt (mediaZipWriteU32 v) j := by
    intro j hj
    rw [← h, byteAt_window hj]
  rw [← readU32_write hv, mediaZipReadU32, mediaZipReadU32, ← hBytes 0 (by decide), ← hBytes 1 (by decide),
    ← hBytes 2 (by decide), ← hBytes 3 (by decide)]
  rfl

theorem byteAt_append (front buf : List UInt8) (k : Nat) : byteAt (front ++ buf) (front.length + k) = byteAt buf k := by
  rw [byteAt, byteAt, List.getD_eq_getElem?_getD, List.getD_eq_getElem?_getD,
    List.getElem?_append_right (Nat.le_add_right _ _), Nat.add_sub_cancel_left]

theorem readU16_append (front buf : List UInt8) (k : Nat) :
    mediaZipReadU16 (front ++ buf) (front.length + k) = mediaZipReadU16 buf k := by
  rw [mediaZipReadU16, mediaZipReadU16, byteAt_append, Nat.add_assoc, byteAt_append]

theorem readU32_append (front buf : List UInt8) (k : Nat) :
    mediaZipReadU32 (front ++ buf) (front.length + k) = mediaZipReadU32 buf k := by
  rw [mediaZipReadU32, mediaZipReadU32, byteAt_append, Nat.add_assoc, byteAt_append, Nat.add_assoc, byteAt_append,
    Nat.add_assoc, byteAt_append]

theorem charOf_byteOf {c : Char} (h : c.toNat < 256) : charOf (byteOf c) = c := by
  rw [charOf, byteOf, UInt8.toNat_ofNat', Nat.mod_eq_of_lt h, Char.ofNat_toNat]

structure Sized (e : MediaZipEntry) : Prop where
  ne_nil : e.name ≠ []
  nul : '\x00' ∉ e.name
  byte : ∀ c ∈ e.name, c.toNat < 256
  short : e.name.length < 256
  record : 30 + e.name.length + e.data.length < 2 ^ 32

variable {e : MediaZipEntry} {D front rest : List UInt8}

theorem Sized.fields (h : Sized e) (rest : List UInt8) :
    mediaZipReadU32 (localHeader e ++ rest) 0 = localHeaderSig ∧ mediaZipReadU16 (localHeader e ++ rest) 8 = 0 ∧
      mediaZipReadU32 (localHeader e ++ rest) 18 = e.data.length ∧
      mediaZipReadU16 (localHeader e ++ rest) 26 = e.name.length ∧ mediaZipReadU16 (localHeader e ++ rest) 28 = 0 := by
  have hData : e.data.length % 2 ^ 32 = e.data.length := Nat.mod_eq_of_lt (by have := h.record; omega)
  have hName : e.name.length % 2 ^ 16 = e.name.length := Nat.mod_eq_of_lt (by have := h.short; omega)
  refine ⟨readU32_field (by decide) rfl, readU16_field (by decide) rfl, ?_, ?_, readU16_field (by decide) rfl⟩
  · exact (readU32_field (Nat.mod_lt _ (by decide)) rfl).trans hData
  · exact (readU16_field (Nat.mod_lt _ (by decide)) rfl).trans hName

theorem length_localHeader (e : MediaZipEntry) : (localHeader e).length = 30 := rfl

theorem length_localRecord (e : MediaZipEntry) :
    (localRecord e).length = 30 + e.name.length + e.data.length := by
  rw [localRecord, List.length_append, List.length_append, List.length_map, length_localHeader]

theorem cString_eq {name : List Char} (h : '\x00' ∉ name) : cString name = name := by
  rw [cString, List.takeWhile_eq_self_iff]
  intro c hc
  simp only [decide_eq_true_eq]
  rintro rfl
  exact h hc

structure ReadBack (D : List UInt8) (off : Nat) (e : MediaZipEntry) : Prop where
  opens : Opens D off
  name : nameAt D off = e.name
  content : contentAt D off = e.data
  isDir : isDirAt D off = endsInSlash e.name
  next : nextOffset D off = off + (localRecord e).length

theorem Sized.readBack (h : Sized e) (hD : D = front ++ (localRecord e ++ rest)) : ReadBack D front.length e := by
  have hParts : D = front ++ (localHeader e ++ (e.name.map byteOf ++ (e.data ++ rest))) := by
    rw [hD, localRecord]
    simp only [List.append_assoc]
  obtain ⟨hSig, hMethod, hComp, hNameLen, hExtra⟩ := h.fields (e.name.map byteOf ++ (e.data ++ rest))
  have hSig' : mediaZipReadU32 D front.length = localHeaderSig := by
    rw [hParts, ← hSig]
    exact readU32_append front _ 0
  have hMethod' : mediaZipReadU16 D (front.length + 8) = 0 := by rw [hParts, readU16_append, hMethod]
  have hComp' : mediaZipReadU32 D (front.length + 18) = e.data.length := by rw [hParts, readU32_append, hComp]
  have hName' : mediaZipReadU16 D (front.length + 26) = e.name.length := by
    rw [hParts, readU16_append, hNameLen]
  have hExtra' : mediaZipReadU16 D (front.length + 28) = 0 := by rw [hParts, readU16_append, hExtra]
  have hDropHeader : D.drop (front.length + 30) = e.name.map byteOf ++ (e.data ++ rest) := by
    rw [hParts, ← List.append_assoc, ← length_localHeader e, ← List.length_append, List.drop_left]
  have hStart : dataStart D front.length = front.length + 30 + e.name.length := by
    rw [dataStart, hName', hExtra', Nat.add_zero]
  have hDropData : D.drop (dataStart D front.length) = e.data ++ rest := by
    rw [hStart, ← List.drop_drop, hDropHeader, ← List.length_map byteOf, List.drop_left]
  have hLength : entryLength D front.length = (localRecord e).length := by
    rw [entryLength, hName', hExtra', hComp', length_localRecord, Nat.add_zero]
  have hEnd : entryEnd D front.length = front.length + (localRecord e).length := by rw [entryEnd_eq, hLength]
  have hRaw : rawNameAt D front.length = e.name := by
    rw [rawNameAt, hName', hDropHeader, ← List.length_map byteOf, List.take_left, List.map_map]
    exact (List.map_congr_left fun c hc => charOf_byteOf (h.byte c hc)).trans (List.map_id _)
  have hLen : front.length + (localRecord e).length ≤ D.length := by
    rw [hD, List.length_append, List.length_append]
    omega
  constructor
  · refine ⟨⟨?_, hSig'⟩, hMethod', ?_, ?_⟩
    · rw [length_localRecord] at hLen
      omega
    · rw [hEnd]
      exact hLen
    · rw [hName']
      exact h.short
  · rw [nameAt, hRaw, cString_eq h.nul]
  · rw [contentAt, hDropData, hComp', List.take_left]
  · rw [isDirAt, hRaw]
  · rw [nextOffset_eq (by rw [hLength, length_localRecord]; exact h.record), hEnd]

def centralHeader (e : MediaZipEntry) (k : Nat) : List UInt8 :=
  mediaZipWriteU32 centralHeaderSig ++ (mediaZipWriteU16 20 ++ (mediaZipWriteU16 20 ++ (mediaZipWriteU16 0 ++
    (mediaZipWriteU16 0 ++ (mediaZipWriteU16 0 ++ (mediaZipWriteU16 0 ++ (mediaZipWriteU32 e.crc32.toNat ++
    (mediaZipWriteU32 (e.data.length % 2 ^ 32) ++ (mediaZipWriteU32 (e.data.length % 2 ^ 32) ++
    (mediaZipWriteU16 (e.name.length % 2 ^ 16) ++ (mediaZipWriteU16 0 ++ (mediaZipWriteU16 0 ++ (mediaZipWriteU16 0 ++
    (mediaZipWriteU16 0 ++ (mediaZipWriteU32 0 ++ mediaZipWriteU32 (k % 2 ^ 32))))))))))))))))

theorem centralRecord_eq (e : MediaZipEntry) (k : Nat) : centralRecord e k = centralHeader e k ++ e.name.map byteOf := by
  delta centralRecord centralHeader
  simp only [List.append_assoc]

theorem length_centralHeader (e : MediaZipEntry) (k : Nat) : (centralHeader e k).length = 46 :=
  rfl

theorem length_centralRecord (e : MediaZipEntry) (k : Nat) : (centralRecord e k).length = 46 + e.name.length := by
  rw [centralRecord_eq, List.length_append, List.length_map, length_centralHeader]

theorem readU32_centralRecord (e : MediaZipEntry) (k : Nat) (rest : List UInt8) :
    mediaZipReadU32 (centralRecord e k ++ rest) 0 = centralHeaderSig := by
  rw [centralRecord_eq, List.append_assoc]
  exact readU32_field (by decide) rfl

theorem not_begins_central {E : List MediaZipEntry} (hE : E ≠ []) (front rest : List UInt8) :
    ¬ Begins (front ++ (centralDirectory E ++ rest)) front.length := by
  rintro ⟨-, hSig⟩
  obtain ⟨e, E, rfl⟩ := List.exists_cons_of_ne_nil hE
  have hCentral : mediaZipReadU32 (centralDirectory (e :: E) ++ rest) 0 = centralHeaderSig := by
    rw [centralDirectory, List.zipIdx_cons, List.flatMap_cons, List.append_assoc]
    exact readU32_centralRecord e _ _
  have hRead := readU32_append front (centralDirectory (e :: E) ++ rest) 0
  rw [Nat.add_zero, hSig, hCentral] at hRead
  exact absurd hRead (by decide)

section Calls

variable {σ : Type} {cb : σ → List Char → List UInt8 → Bool → Option (σ × Int)}

def callEach (cb : σ → List Char → List UInt8 → Bool → Option (σ × Int)) : List MediaZipEntry → σ → Option (σ × Int)
  | [], st => some (st, 0)
  | e :: L, st => (cb st e.name e.data (endsInSlash e.name)).bind fun r =>
    if r.2 ≠ 0 then some (r.1, -eIo) else callEach cb L r.1

theorem foreachLoop_records {L : List MediaZipEntry} {st : σ} {fuel : Nat} (hSized : ∀ e ∈ L, Sized e)
    (hD : D = front ++ (L.flatMap localRecord ++ rest)) (hStop : ¬ Begins D (front ++ L.flatMap localRecord).length)
    (hFuel : D.length < front.length + fuel) : foreachLoop D cb fuel front.length st = callEach cb L st := by
  induction L generalizing front st fuel with
  | nil =>
    obtain ⟨fuel, rfl⟩ : ∃ m, fuel = m + 1 := by
      refine ⟨fuel - 1, ?_⟩
      have hLen : front.length ≤ D.length := by simp [hD]
      omega
    rw [List.flatMap_nil, List.append_nil] at hStop
    obtain ⟨ret, hLoop, hRet⟩ := foreachLoop_stops (fun hOpens => hStop hOpens.begins) cb fuel st
    obtain rfl := hRet.mpr hStop
    exact hLoop
  | cons e L ih =>
    obtain ⟨he, hSized⟩ := List.forall_mem_cons.mp hSized
    rw [List.flatMap_cons, List.append_assoc] at hD
    have hRead := he.readBack hD
    have hLen := (nextOffset_le D _).trans hRead.opens.fits
    rw [hRead.next] at hLen
    obtain ⟨fuel, rfl⟩ : ∃ m, fuel = m + 1 := ⟨fuel - 1, by omega⟩
    have hPos := length_localRecord e
    have hD' : D = front ++ localRecord e ++ (L.flatMap localRecord ++ rest) := by rw [hD, List.append_assoc]
    have hFuel' : D.length < (front ++ localRecord e).length + fuel := by
      rw [List.length_append]
      omega
    rw [foreachLoop_call hRead.opens, hRead.name, hRead.content, hRead.isDir, hRead.next, callEach, ← List.length_append]
    congr 1
    funext r
    rw [ih hSized hD' (by simpa using hStop) hFuel']

theorem foreach_archiveOf {E : List MediaZipEntry} (hE : E ≠ []) (hSized : ∀ e ∈ E, Sized e) (st : σ) :
    mediaZipForeach (archiveOf E) cb st = callEach cb E st := by
  have hParts : archiveOf E = [] ++ (E.flatMap localRecord ++ (centralDirectory E ++
      endRecord E.length (centralDirectory E).length (E.flatMap localRecord).length)) := by
    rw [archiveOf, List.nil_append, List.append_assoc]
  have hStop : ¬ Begins (archiveOf E) ([] ++ E.flatMap localRecord).length := by
    rw [hParts, List.nil_append]
    exact not_begins_central hE _ _
  have hLong : ¬ (archiveOf E).length < 30 := by
    obtain ⟨e, L, rfl⟩ := List.exists_cons_of_ne_nil hE
    have hFirst := length_localRecord e
    rw [hParts, List.nil_append, List.length_append, List.flatMap_cons, List.length_append]
    omega
  rw [mediaZipForeach, if_neg hLong]
  exact foreachLoop_records hSized hParts hStop
    (by simp : (archiveOf E).length < ([] : List UInt8).length + ((archiveOf E).length + 1))

theorem callEach_ok {P : List MediaZipEntry → σ → Prop} {E : List MediaZipEntry}
    (hStep : ∀ done e st, e ∈ E → P done st →
      ∃ st', cb st e.name e.data (endsInSlash e.name) = some (st', 0) ∧ P (done ++ [e]) st')
    {L done : List MediaZipEntry} {st : σ} (hSub : ∀ e ∈ L, e ∈ E) (hP : P done st) :
    ∃ st', callEach cb L st = some (st', 0) ∧ P (done ++ L) st' := by
  induction L generalizing done st with
  | nil => exact ⟨st, rfl, by rwa [List.append_nil]⟩
  | cons e L ih =>
    obtain ⟨he, hSub⟩ := List.forall_mem_cons.mp hSub
    obtain ⟨st₁, hCb, hP₁⟩ := hStep done e st he hP
    obtain ⟨st', hCalls, hP'⟩ := ih hSub hP₁
    refine ⟨st', ?_, by rwa [← List.append_cons] at hP'⟩
    rw [callEach, hCb]
    exact hCalls

end Calls

end UnixOS.Media
