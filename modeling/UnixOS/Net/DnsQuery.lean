import UnixOS.Net.DnsScan

/-! # DNS queries

`dns_encode_name` and `dns_build_query` of `kernel/net/dns.c`, with a record of the bytes of the packet that they write.
A hostname is the list of its bytes in front of the terminator.
-/

namespace UnixOS.Net

open ByteMemory AccessLog

def dnsMaxNameLen : Nat := 255
def dnsFlagRd : UInt16 := 0x0100

def dot : UInt8 := 0x2E

/-! ### The encoder -/

def copyLabel (base : Nat) (name : Mem) : Nat → Nat → Nat → DnsRun Unit
  | 0, _, _ => pure ()
  | left + 1, i, pos => do
    writeByte (base + pos) (name i)
    copyLabel base name left (i + 1) (pos + 1)

def encodeLabel (base bufLen : Nat) (name : Mem) (pos labelStart len : Nat) : DnsRun (Option Nat) :=
  if pos + 1 + (len - labelStart) ≥ bufLen then pure none
  else do
    writeByte (base + pos) (UInt8.ofNat (len - labelStart))
    copyLabel base name (len - labelStart) labelStart (pos + 1)
    pure (some (pos + 1 + (len - labelStart)))

def encodeEnd (base pos : Nat) : DnsRun Int := do
  writeByte (base + pos) 0
  pure (toInt32 (pos + 1))

def encodeLoop (base bufLen : Nat) (name : Mem) : List UInt8 → Nat → Nat → Nat → DnsRun Int
  | [], pos, len, labelStart =>
    if len > labelStart then do
      let next ← encodeLabel base bufLen name pos labelStart len
      match next with
      | none => pure (-1)
      | some pos => encodeEnd base pos
    else encodeEnd base pos
  | c :: rest, pos, len, labelStart =>
    if c = dot then do
      let next ← encodeLabel base bufLen name pos labelStart len
      match next with
      | none => pure (-1)
      | some pos => encodeLoop base bufLen name rest pos (len + 1) (len + 1)
    else encodeLoop base bufLen name rest pos (len + 1) labelStart

def dnsEncodeName (hostname : List UInt8) (base bufLen : Nat) : DnsRun Int :=
  encodeLoop base bufLen (holding hostname) hostname 0 0 0

def writeField (pos : Nat) (v : UInt16) : DnsRun Unit := do
  writeByte pos v.toUInt8
  writeByte (pos + 1) (v >>> 8).toUInt8

def writeHeader (queryId : UInt16) : DnsRun Unit := do
  writeField 0 (htons queryId)
  writeField 2 (htons dnsFlagRd)
  writeField 4 (htons 1)
  writeField 6 0
  writeField 8 0
  writeField 10 0

def writeQuestion (pos : Nat) (type : UInt16) : DnsRun Unit := do
  writeByte pos ((type >>> 8) &&& 0xFF).toUInt8
  writeByte (pos + 1) (type &&& 0xFF).toUInt8
  writeByte (pos + 2) 0
  writeByte (pos + 3) 1

def dnsBuildQuery (queryId : UInt16) (hostname : List UInt8) (type : UInt16) (bufLen : Nat) : DnsRun Int :=
  if bufLen < dnsHeaderSize + dnsMaxNameLen + 4 then pure (-1)
  else do
    writeHeader queryId
    let nameLen ← dnsEncodeName hostname dnsHeaderSize (bufLen - dnsHeaderSize)
    if nameLen < 0 then pure (-1)
    else do
      let pos := dnsHeaderSize + nameLen.toNat
      writeQuestion pos type
      pure (toInt32 (pos + 4))

/-! ### Laying bytes down -/

def lay (buf : Mem) : Nat → List UInt8 → Mem
  | _, [] => buf
  | pos, b :: bytes => lay (Function.update buf pos b) (pos + 1) bytes

section Lay

variable {buf : Mem} {pos x : Nat} {bytes bytes' : List UInt8}

theorem lay_append : lay buf pos (bytes ++ bytes') = lay (lay buf pos bytes) (pos + bytes.length) bytes' := by
  induction bytes generalizing buf pos with
  | nil => rfl
  | cons b bytes ih =>
    rw [List.cons_append, lay, ih, lay, List.length_cons, Nat.add_assoc, Nat.add_comm 1]

theorem lay_before (h : x < pos) : lay buf pos bytes x = buf x := by
  induction bytes generalizing buf pos with
  | nil => rfl
  | cons b bytes ih => rw [lay, ih (Nat.lt_succ_of_lt h), Function.update_of_ne (Nat.ne_of_lt h)]

theorem lies_lay : Lies (lay buf pos bytes) pos bytes := by
  induction bytes generalizing buf pos with
  | nil => trivial
  | cons b bytes ih =>
    refine ⟨?_, ih⟩
    rw [lay, lay_before (Nat.lt_succ_self pos), Function.update_self]

def Lays {α : Type} (m : DnsRun α) (buf : Mem) (a : α) (pos : Nat) (bytes : List UInt8) : Prop :=
  ∃ log, m buf = ⟨.ok a, lay buf pos bytes, log⟩ ∧ ∀ e ∈ log, e.Fits 0 (pos + bytes.length)

variable {α β : Type} {m : DnsRun α} {f : α → DnsRun β} {a : α} {b : β}

theorem DnsAccess.Fits.mono {e : DnsAccess} {len n n' : Nat} (h : e.Fits len n) (hn : n ≤ n') : e.Fits len n' := by
  cases e with
  | read i => exact h
  | write i => exact Nat.lt_of_lt_of_le h hn

theorem Lays.bind (h : Lays m buf a pos bytes)
    (hf : Lays (f a) (lay buf pos bytes) b (pos + bytes.length) bytes') : Lays (m >>= f) buf b pos (bytes ++ bytes') := by
  obtain ⟨log, hRun, hFits⟩ := h
  obtain ⟨log', hRun', hFits'⟩ := hf
  refine ⟨log ++ log', ?_, List.forall_mem_append.mpr ⟨fun e he => (hFits e he).mono ?_, fun e he => (hFits' e he).mono ?_⟩⟩
  · rw [bind_of_ok hRun, hRun', lay_append]
    rfl
  · rw [List.length_append, ← Nat.add_assoc]
    exact Nat.le_add_right _ _
  · rw [List.length_append, ← Nat.add_assoc]

theorem lays_pure (a : α) : Lays (pure a) buf a pos [] :=
  ⟨[], rfl, fun _ he => nomatch he⟩

theorem lays_writeByte (b : UInt8) : Lays (writeByte pos b) buf () pos [b] :=
  ⟨[.write pos], rfl, List.forall_mem_singleton.mpr (Nat.lt_succ_self pos)⟩

theorem Lays.thenPure (h : Lays m buf a pos bytes) (b : β) (hf : f a = pure b) : Lays (m >>= f) buf b pos bytes := by
  have hBind : Lays (m >>= f) buf b pos (bytes ++ []) := h.bind (by rw [hf]; exact lays_pure b)
  rwa [List.append_nil] at hBind

end Lay

/-! ### What the encoder writes -/

def labelsFrom : List UInt8 → List UInt8 → List (List UInt8)
  | current, [] => if current = [] then [] else [current]
  | current, c :: rest => if c = dot then current :: labelsFrom [] rest else labelsFrom (current ++ [c]) rest

def hostLabels (hostname : List UInt8) : List (List UInt8) := labelsFrom [] hostname

def wireLength (labels : List (List UInt8)) : Nat := (labels.flatMap labelBytes).length

section Encode

variable {name buf : Mem} {base bufLen pos i labelStart : Nat} {label current rest : List UInt8}

theorem wireLength_cons (label : List UInt8) (labels : List (List UInt8)) :
    wireLength (label :: labels) = 1 + label.length + wireLength labels := by
  rw [wireLength, List.flatMap_cons, List.length_append, labelBytes, List.length_cons, wireLength, Nat.add_comm 1]

theorem copyLabel_lays (h : Lies name i label) :
    Lays (copyLabel base name label.length i pos) buf () (base + pos) label := by
  induction label generalizing buf i pos with
  | nil => exact lays_pure ()
  | cons b label ih =>
    rw [List.length_cons, copyLabel, h.1]
    exact (lays_writeByte b).bind (ih h.2)

theorem encodeLabel_lays (h : Lies name labelStart label) (hRoom : pos + 1 + label.length < bufLen) :
    Lays (encodeLabel base bufLen name pos labelStart (labelStart + label.length)) buf
      (some (pos + 1 + label.length)) (base + pos) (labelBytes label) := by
  rw [encodeLabel, Nat.add_sub_cancel_left, if_neg (Nat.not_le.mpr hRoom)]
  exact (lays_writeByte _).bind ((copyLabel_lays h).thenPure _ rfl)

theorem encodeLabel_fails (hFull : bufLen ≤ pos + 1 + label.length) :
    encodeLabel base bufLen name pos labelStart (labelStart + label.length) = pure none := by
  rw [encodeLabel, Nat.add_sub_cancel_left, if_pos hFull]

theorem encodeEnd_lays : Lays (encodeEnd base pos) buf (toInt32 (pos + 1)) (base + pos) [0] :=
  (lays_writeByte 0).thenPure _ rfl

theorem length_labelBytes (base pos : Nat) (label : List UInt8) :
    base + pos + (labelBytes label).length = base + (pos + 1 + label.length) := by
  rw [labelBytes, List.length_cons]
  omega

theorem encodeLoop_lays (h : Lies name labelStart (current ++ rest))
    (hRoom : pos + wireLength (labelsFrom current rest) < bufLen) :
    Lays (encodeLoop base bufLen name rest pos (labelStart + current.length) labelStart) buf
      (toInt32 (pos + wireLength (labelsFrom current rest) + 1)) (base + pos)
      ((labelsFrom current rest).flatMap labelBytes ++ [0]) := by
  induction rest generalizing buf current pos labelStart with
  | nil =>
    rw [labelsFrom] at hRoom ⊢
    rw [encodeLoop]
    by_cases hNone : current = []
    · rw [hNone, if_neg (by simp)]
      exact encodeEnd_lays
    · have hLength := List.length_pos_iff.mpr hNone
      have hTotal : wireLength [current] = 1 + current.length := wireLength_cons current []
      rw [if_neg hNone, hTotal] at hRoom
      rw [if_neg hNone, if_pos (by omega), hTotal, List.flatMap_singleton, ← Nat.add_assoc]
      rw [List.append_nil] at h
      refine (encodeLabel_lays h (by omega)).bind ?_
      rw [length_labelBytes]
      exact encodeEnd_lays
  | cons c rest ih =>
    obtain ⟨hCurrent, hRest⟩ := lies_append.mp h
    rw [labelsFrom] at hRoom ⊢
    rw [encodeLoop]
    by_cases hDot : c = dot
    · rw [if_pos hDot, wireLength_cons] at hRoom
      rw [if_pos hDot, if_pos hDot, wireLength_cons, List.flatMap_cons, List.append_assoc]
      refine (encodeLabel_lays hCurrent (by omega)).bind ?_
      rw [length_labelBytes, ← Nat.add_assoc, ← Nat.add_assoc]
      exact @ih (lay buf (base + pos) (labelBytes current)) (pos + 1 + current.length) (labelStart + current.length + 1) []
        hRest.2 (by omega)
    · rw [if_neg hDot] at hRoom ⊢
      rw [if_neg hDot]
      have hLies : Lies name labelStart ((current ++ [c]) ++ rest) := by rwa [List.append_assoc]
      have hNext := @ih buf pos labelStart (current ++ [c]) hLies hRoom
      rwa [List.length_append, ← Nat.add_assoc] at hNext

theorem encodeLoop_fails (h : Lies name labelStart (current ++ rest)) (hPos : pos < bufLen)
    (hFull : bufLen ≤ pos + wireLength (labelsFrom current rest)) :
    ∃ buf' log, encodeLoop base bufLen name rest pos (labelStart + current.length) labelStart buf =
      ⟨.ok (-1), buf', log⟩ := by
  induction rest generalizing buf current pos labelStart with
  | nil =>
    rw [labelsFrom] at hFull
    rw [encodeLoop]
    by_cases hNone : current = []
    · rw [if_pos hNone] at hFull
      exact absurd hPos (Nat.not_lt.mpr hFull)
    · have hLength := List.length_pos_iff.mpr hNone
      have hTotal : wireLength [current] = 1 + current.length := wireLength_cons current []
      rw [if_neg hNone, hTotal] at hFull
      rw [if_pos (by omega), encodeLabel_fails (by omega)]
      exact ⟨_, _, rfl⟩
  | cons c rest ih =>
    obtain ⟨hCurrent, hRest⟩ := lies_append.mp h
    rw [labelsFrom] at hFull
    rw [encodeLoop]
    by_cases hDot : c = dot
    · rw [if_pos hDot, wireLength_cons] at hFull
      rw [if_pos hDot]
      by_cases hRoom : pos + 1 + current.length < bufLen
      · obtain ⟨log, hRun, -⟩ := @encodeLabel_lays name buf base bufLen pos labelStart current hCurrent hRoom
        obtain ⟨buf', log', hNext⟩ := @ih (lay buf (base + pos) (labelBytes current)) (pos + 1 + current.length)
          (labelStart + current.length + 1) [] hRest.2 hRoom (by omega)
        refine ⟨buf', log ++ log', ?_⟩
        rw [bind_of_ok hRun]
        exact congrArg (Outcome.after log) hNext
      · rw [encodeLabel_fails (Nat.not_lt.mp hRoom)]
        exact ⟨_, _, rfl⟩
    · rw [if_neg hDot] at hFull ⊢
      have hLies : Lies name labelStart ((current ++ [c]) ++ rest) := by rwa [List.append_assoc]
      have hNext := @ih buf pos labelStart (current ++ [c]) hLies hPos hFull
      rwa [List.length_append, ← Nat.add_assoc] at hNext

end Encode

/-! ### Hostnames -/

def joinLabels : List (List UInt8) → List UInt8
  | [] => []
  | label :: labels => label ++ labels.flatMap (dot :: ·)

structure Encodes (labels : List (List UInt8)) (hostname : List UInt8) : Prop where
  size : ∀ label ∈ labels, 0 < label.length ∧ label.length < 64
  plain : ∀ label ∈ labels, dot ∉ label
  total : wireLength labels + 1 ≤ dnsMaxNameLen
  name : hostname = joinLabels labels ∨ hostname = joinLabels labels ++ [dot]

def withoutDot (hostname : List UInt8) : List UInt8 :=
  if hostname.getLast? = some dot then hostname.dropLast else hostname

def queryLength (hostname : List UInt8) : Nat :=
  hostname.length + if hostname = [] ∨ hostname.getLast? = some dot then 0 else 1

section Hostnames

variable {labels : List (List UInt8)} {hostname label current rest : List UInt8}

theorem wireLength_labelsFrom (current rest : List UInt8) : wireLength (labelsFrom current rest) =
    current.length + rest.length + if current = [] ∧ rest = [] ∨ rest.getLast? = some dot then 0 else 1 := by
  induction rest generalizing current with
  | nil =>
    rw [labelsFrom]
    by_cases hNone : current = []
    · rw [if_pos hNone, if_pos (Or.inl ⟨hNone, rfl⟩), hNone]
      rfl
    · rw [if_neg hNone, if_neg (by simp [hNone]), wireLength_cons, Nat.add_comm 1]
      rfl
  | cons c rest ih =>
    rw [labelsFrom]
    by_cases hDot : c = dot
    · have hLast : (c :: rest).getLast? = some dot ↔ rest = [] ∨ rest.getLast? = some dot := by
        cases rest with
        | nil => simp [hDot]
        | cons d rest => simp
      have hEnd : (if ([] : List UInt8) = [] ∧ rest = [] ∨ rest.getLast? = some dot then 0 else 1) =
          if current = [] ∧ c :: rest = [] ∨ (c :: rest).getLast? = some dot then 0 else 1 :=
        if_congr (by simp [hLast]) rfl rfl
      rw [if_pos hDot, wireLength_cons, ih, hEnd, List.length_cons, List.length_nil]
      omega
    · have hLast : (c :: rest).getLast? = some dot ↔ rest.getLast? = some dot := by
        cases rest with
        | nil => simp [hDot]
        | cons d rest => simp
      have hEnd : (if current ++ [c] = [] ∧ rest = [] ∨ rest.getLast? = some dot then 0 else 1) =
          if current = [] ∧ c :: rest = [] ∨ (c :: rest).getLast? = some dot then 0 else 1 :=
        if_congr (by simp [hLast]) rfl rfl
      rw [if_neg hDot, ih, hEnd, List.length_append, List.length_singleton, List.length_cons]
      omega

theorem wireLength_hostLabels (hostname : List UInt8) : wireLength (hostLabels hostname) = queryLength hostname := by
  rw [hostLabels, wireLength_labelsFrom, queryLength]
  simp

theorem labelsFrom_append (h : dot ∉ label) : labelsFrom current (label ++ rest) = labelsFrom (current ++ label) rest := by
  induction label generalizing current with
  | nil => rw [List.nil_append, List.append_nil]
  | cons c label ih =>
    obtain ⟨hc, hLabel⟩ := not_or.mp (mt List.mem_cons.mpr h)
    rw [List.cons_append, labelsFrom, if_neg (Ne.symm hc), ih hLabel, List.append_assoc, List.singleton_append]

theorem labelsFrom_tail {tail : List UInt8} (hSize : ∀ label ∈ labels, 0 < label.length)
    (hPlain : ∀ label ∈ labels, dot ∉ label) (hCurrent : 0 < current.length) (hTail : tail = [] ∨ tail = [dot]) :
    labelsFrom current (labels.flatMap (dot :: ·) ++ tail) = current :: labels := by
  induction labels generalizing current with
  | nil =>
    rcases hTail with rfl | rfl
    · exact if_neg (List.length_pos_iff.mp hCurrent)
    · rfl
  | cons label labels ih =>
    obtain ⟨hFirst, hSize⟩ := List.forall_mem_cons.mp hSize
    obtain ⟨hLabel, hPlain⟩ := List.forall_mem_cons.mp hPlain
    rw [List.flatMap_cons, List.append_assoc, List.cons_append, labelsFrom, if_pos rfl, labelsFrom_append hLabel,
      List.nil_append, ih hSize hPlain hFirst]

theorem Encodes.hostLabels_eq (h : Encodes labels hostname) (hDot : hostname ≠ [dot]) : hostLabels hostname = labels := by
  obtain ⟨tail, hTail, hName⟩ : ∃ tail, (tail = [] ∨ tail = [dot]) ∧ hostname = joinLabels labels ++ tail := by
    rcases h.name with hName | hName
    · exact ⟨[], Or.inl rfl, by rw [hName, List.append_nil]⟩
    · exact ⟨[dot], Or.inr rfl, hName⟩
  cases labels with
  | nil =>
    rcases hTail with rfl | rfl
    · rw [hName]
      rfl
    · exact absurd hName hDot
  | cons label labels =>
    obtain ⟨hFirst, hSize⟩ := List.forall_mem_cons.mp h.size
    obtain ⟨hLabel, hPlain⟩ := List.forall_mem_cons.mp h.plain
    rw [hName, hostLabels, joinLabels, List.append_assoc, labelsFrom_append hLabel, List.nil_append]
    exact labelsFrom_tail (fun l hl => (hSize l hl).1) hPlain hFirst.1 hTail

theorem getLast_labels (hSize : ∀ label ∈ labels, 0 < label.length) (hPlain : ∀ label ∈ labels, dot ∉ label)
    (hLabel : dot ∉ label) : (label ++ labels.flatMap (dot :: ·)).getLast? ≠ some dot := by
  induction labels generalizing label with
  | nil =>
    rw [List.flatMap_nil, List.append_nil]
    exact fun hLast => hLabel (List.mem_of_getLast? hLast)
  | cons next labels ih =>
    obtain ⟨hFirst, hSize⟩ := List.forall_mem_cons.mp hSize
    obtain ⟨hNext, hPlain⟩ := List.forall_mem_cons.mp hPlain
    have hSome : next ++ labels.flatMap (dot :: ·) ≠ [] :=
      List.append_ne_nil_of_left_ne_nil (List.length_pos_iff.mp hFirst) _
    rw [List.flatMap_cons, List.cons_append, List.getLast?_append_cons, List.getLast?_cons_of_ne_nil hSome]
    exact ih hSize hPlain hNext

theorem Encodes.withoutDot_eq (h : Encodes labels hostname) : withoutDot hostname = joinLabels labels := by
  rcases h.name with hName | hName
  · have hLast : hostname.getLast? ≠ some dot := by
      rw [hName]
      cases labels with
      | nil => exact fun h => nomatch h
      | cons label labels =>
        obtain ⟨hFirst, hSize⟩ := List.forall_mem_cons.mp h.size
        obtain ⟨hLabel, hPlain⟩ := List.forall_mem_cons.mp h.plain
        exact getLast_labels (fun l hl => (hSize l hl).1) hPlain hLabel
    rw [withoutDot, if_neg hLast, hName]
  · rw [withoutDot, hName, List.getLast?_concat, if_pos rfl, List.dropLast_concat]

end Hostnames

/-! ### Decoding the question -/

def separator (pos : Nat) : List UInt8 := if 0 < pos then [dot] else []

def decodedText : Nat → List (List UInt8) → List UInt8
  | _, [] => []
  | pos, label :: labels => separator pos ++ (label ++ decodedText (pos + (separator pos).length + label.length) labels)

section Decode

variable {response name : Mem} {responseLen last pos : Nat} {c : DecodeCursor} {label : List UInt8}
  {labels : List (List UInt8)}

theorem decodedText_pos (h : 0 < pos) : decodedText pos labels = labels.flatMap (dot :: ·) := by
  induction labels generalizing pos with
  | nil => rfl
  | cons label labels ih =>
    rw [decodedText, separator, if_pos h, ih (by omega), List.flatMap_cons]
    rfl

theorem decodedText_zero (hSize : ∀ label ∈ labels, 0 < label.length) : decodedText 0 labels = joinLabels labels := by
  cases labels with
  | nil => rfl
  | cons label labels =>
    have hFirst := hSize label List.mem_cons_self
    rw [decodedText, decodedText_pos (by omega)]
    rfl

theorem lay_eq_fill (bytes : List UInt8) : lay name pos bytes = fill name pos bytes.length (fun k => bytes.getD k 0) := by
  induction bytes generalizing name pos with
  | nil => exact (fill_none _).symm
  | cons b bytes ih =>
    rw [lay, ih, List.length_cons]
    exact fill_cons b _ (fun k => (b :: bytes).getD k 0) rfl

theorem decodeDot_label (h : pos + (separator pos).length < last) :
    ∃ log, decodeDot last pos name = ⟨.ok (pos + (separator pos).length), lay name pos (separator pos), log⟩ := by
  unfold decodeDot separator at *
  by_cases hPos : 0 < pos
  · rw [if_pos hPos] at *
    rw [if_pos ⟨hPos, Nat.lt_of_succ_lt h⟩]
    exact ⟨_, rfl⟩
  · rw [if_neg hPos] at *
    rw [if_neg fun hDot => hPos hDot.1]
    exact ⟨_, rfl⟩

theorem decodeLabel_label {offset : Nat} (hLies : Lies response offset label) (hIn : offset + label.length ≤ responseLen)
    (hRoom : pos + label.length ≤ last) : ∃ log, decodeLabel response responseLen last label.length offset pos name =
      ⟨.ok (offset + label.length, pos + label.length), lay name pos label, log⟩ := by
  obtain ⟨log, hRun, -⟩ := @decodeLabel_run response name responseLen last offset pos label.length (by omega) (by omega)
  refine ⟨log, ?_⟩
  rw [hRun, Nat.min_eq_left (show label.length ≤ responseLen - offset by omega), Nat.min_eq_left hIn,
    Nat.min_eq_left hRoom, Nat.min_eq_left (show label.length ≤ last - pos by omega), lay_eq_fill,
    fill_congr fun i hi => hLies.getD hi]

theorem decodeRound_label (hLabel : 0 < label.length ∧ label.length < 64) {rest : List UInt8}
    (hLies : Lies response c.offset (labelBytes label ++ rest)) (hIn : c.offset + (labelBytes label).length ≤ responseLen)
    (hRoom : c.pos + (separator c.pos).length + label.length ≤ last) (hJumped : c.jumped = false) :
    ∃ log, decodeRound response responseLen last c name =
      ⟨.ok (.next ⟨c.offset + (labelBytes label).length, c.pos + (separator c.pos).length + label.length,
        c.readLen + (labelBytes label).length, false⟩), lay name c.pos (separator c.pos ++ label), log⟩ := by
  obtain ⟨hNat, hSome, hPlain⟩ := label_byte hLabel hLies
  have hLength : (labelBytes label).length = 1 + label.length := Nat.add_comm _ _
  rw [hLength] at hIn ⊢
  obtain ⟨dotLog, hDot⟩ := @decodeDot_label name last c.pos (by omega)
  obtain ⟨log, hRun⟩ := @decodeLabel_label response (lay name c.pos (separator c.pos)) responseLen last
    (c.pos + (separator c.pos).length) label (c.offset + 1) (lies_append.mp hLies).1.2 (by omega) hRoom
  rw [decodeRound, if_pos (by omega), bind_readResponse, if_neg hSome, if_neg hPlain, hNat, bind_of_ok hDot,
    bind_of_ok hRun, lay_append, hJumped, ← Nat.add_assoc c.offset]
  exact ⟨_, rfl⟩

theorem decodeLoop_labels (hLabels : ∀ label ∈ labels, 0 < label.length ∧ label.length < 64)
    (hLies : Lies response c.offset (labels.flatMap labelBytes ++ [0]))
    (hIn : c.offset + wireLength labels < responseLen) (hRoom : c.pos + (decodedText c.pos labels).length ≤ last)
    (hJumped : c.jumped = false) :
    ∃ log, decodeLoop response responseLen last (labels.length + 1) c name =
      ⟨.ok (toInt32 (c.readLen + wireLength labels + 1)), lay name c.pos (decodedText c.pos labels ++ [0]), log⟩ := by
  induction labels generalizing c name with
  | nil =>
    have hZero : response c.offset = 0 := hLies.1
    have hRound : decodeRound response responseLen last c name =
        ⟨.ok (.leave { c with readLen := c.readLen + 1 }), name, [.read c.offset]⟩ := by
      rw [decodeRound, if_pos (show c.offset < responseLen from hIn), bind_readResponse, if_pos hZero, hJumped]
      rfl
    rw [List.length_nil, decodeLoop, bind_of_ok hRound]
    exact ⟨_, rfl⟩
  | cons label labels ih =>
    obtain ⟨hLabel, hLabels⟩ := List.forall_mem_cons.mp hLabels
    rw [List.flatMap_cons, List.append_assoc] at hLies
    rw [wireLength_cons] at hIn
    rw [decodedText, List.length_append, List.length_append] at hRoom
    have hLength : (labelBytes label).length = 1 + label.length := Nat.add_comm _ _
    obtain ⟨log, hRound⟩ := @decodeRound_label response name responseLen last c label hLabel _ hLies (by omega) (by omega)
      hJumped
    obtain ⟨log', hRest⟩ := @ih (lay name c.pos (separator c.pos ++ label))
      ⟨c.offset + (labelBytes label).length, c.pos + (separator c.pos).length + label.length,
        c.readLen + (labelBytes label).length, false⟩ hLabels (lies_append.mp hLies).2 (by dsimp only; omega)
      (by dsimp only; omega) rfl
    have hLay : lay (lay name c.pos (separator c.pos ++ label)) (c.pos + (separator c.pos).length + label.length)
        (decodedText (c.pos + (separator c.pos).length + label.length) labels ++ [0]) =
        lay name c.pos (decodedText c.pos (label :: labels) ++ [0]) := by
      rw [decodedText, ← List.append_assoc, List.append_assoc _ _ [0], @lay_append name c.pos (separator c.pos ++ label),
        List.length_append, ← Nat.add_assoc]
    rw [List.length_cons, decodeLoop, bind_of_ok hRound]
    refine ⟨log ++ log', ?_⟩
    dsimp only at hRest ⊢
    rw [hRest, hLay, wireLength_cons, hLength, Nat.add_assoc c.readLen (1 + label.length)]
    rfl

end Decode

/-! ### Building the query -/

section Build

variable {buf name : Mem} {base bufLen pos : Nat} {queryId type : UInt16} {hostname : List UInt8}
  {labels : List (List UInt8)}

theorem toInt32_nonneg_iff (n : Nat) : 0 ≤ toInt32 n ↔ n % 2 ^ 32 < 2 ^ 31 := by
  have hMod := Int.bmod_def (n : Int) (2 ^ 32)
  unfold toInt32
  norm_num at hMod ⊢
  omega

theorem toInt32_eq {n : Nat} (h : n % 2 ^ 32 < 2 ^ 31) : toInt32 n = (n % 2 ^ 32 : Nat) := by
  have hMod := Int.bmod_def (n : Int) (2 ^ 32)
  unfold toInt32
  norm_num at hMod h ⊢
  omega

theorem dnsEncodeName_lays (hRoom : queryLength hostname < bufLen) :
    Lays (dnsEncodeName hostname base bufLen) buf (toInt32 (queryLength hostname + 1)) base
      ((hostLabels hostname).flatMap labelBytes ++ [0]) := by
  have hLength : 0 + wireLength (labelsFrom [] hostname) = queryLength hostname :=
    (Nat.zero_add _).trans (wireLength_hostLabels hostname)
  have hLoop := @encodeLoop_lays (holding hostname) buf base bufLen 0 0 [] hostname (lies_holding hostname)
    (hLength.symm ▸ hRoom)
  rwa [hLength] at hLoop

theorem dnsEncodeName_fails (hBuf : 0 < bufLen) (hFull : bufLen ≤ queryLength hostname) :
    ∃ buf' log, dnsEncodeName hostname base bufLen buf = ⟨.ok (-1), buf', log⟩ := by
  have hLength : 0 + wireLength (labelsFrom [] hostname) = queryLength hostname :=
    (Nat.zero_add _).trans (wireLength_hostLabels hostname)
  exact @encodeLoop_fails (holding hostname) buf base bufLen 0 0 [] hostname (lies_holding hostname) hBuf
    (hLength.symm ▸ hFull)

def headerBytes (queryId : UInt16) : List UInt8 :=
  [htons queryId, htons dnsFlagRd, htons 1, 0, 0, 0].flatMap fun v : UInt16 => [v.toUInt8, (v >>> 8).toUInt8]

theorem writeField_lays (v : UInt16) : Lays (writeField pos v) buf () pos [v.toUInt8, (v >>> 8).toUInt8] :=
  (lays_writeByte _).bind (lays_writeByte _)

theorem writeHeader_lays : Lays (writeHeader queryId) buf () 0 (headerBytes queryId) :=
  (writeField_lays _).bind ((writeField_lays _).bind ((writeField_lays _).bind ((writeField_lays _).bind
    ((writeField_lays _).bind (writeField_lays _)))))

theorem toUInt8_mask (v : UInt16) : (v &&& 0xFF).toUInt8 = v.toUInt8 := by
  apply UInt8.toNat_inj.mp
  rw [UInt16.toNat_toUInt8, UInt16.toNat_toUInt8, UInt16.toNat_and]
  have hMask : v.toNat &&& 255 = v.toNat % 256 := Nat.and_two_pow_sub_one_eq_mod v.toNat 8
  exact (congrArg (· % 256) hMask).trans (Nat.mod_mod _ _)

theorem writeQuestion_lays : Lays (writeQuestion pos type) buf () pos (wire16 type ++ wire16 1) := by
  rw [writeQuestion, toUInt8_mask, toUInt8_mask]
  exact (lays_writeByte _).bind ((lays_writeByte _).bind ((lays_writeByte _).bind (lays_writeByte _)))

theorem writeQuestion_run (pos : Nat) (type : UInt16) : ∃ log, writeQuestion pos type buf =
    ⟨.ok (), lay buf pos (wire16 type ++ wire16 1), log⟩ := by
  obtain ⟨log, hRun, -⟩ := @writeQuestion_lays buf pos type
  exact ⟨log, hRun⟩

structure Accepted (hostname : List UInt8) (bufLen : Nat) : Prop where
  room : dnsHeaderSize + dnsMaxNameLen + 4 ≤ bufLen
  fits : dnsHeaderSize + queryLength hostname < bufLen
  int : (queryLength hostname + 1) % 2 ^ 32 + dnsHeaderSize + 4 < 2 ^ 31

theorem dnsBuildQuery_accepted (h : Accepted hostname bufLen) :
    ∃ packet log, dnsBuildQuery queryId hostname type bufLen buf =
      ⟨.ok ((queryLength hostname + 1) % 2 ^ 32 + dnsHeaderSize + 4 : Nat), packet, log⟩ := by
  have hRoom := h.room
  have hFits := h.fits
  have hInt := h.int
  have hValue := @toInt32_eq (queryLength hostname + 1) (by omega)
  obtain ⟨headerLog, hHeader, -⟩ := @writeHeader_lays buf queryId
  obtain ⟨nameLog, hName, -⟩ := @dnsEncodeName_lays (lay buf 0 (headerBytes queryId)) dnsHeaderSize
    (bufLen - dnsHeaderSize) hostname (by omega)
  rw [dnsBuildQuery, if_neg (by omega), bind_of_ok hHeader, bind_of_ok hName, if_neg (by omega), hValue, Int.toNat_natCast]
  generalize (queryLength hostname + 1) % 2 ^ 32 = n at hInt ⊢
  obtain ⟨log, hQuestion⟩ := @writeQuestion_run
    (lay (lay buf 0 (headerBytes queryId)) dnsHeaderSize ((hostLabels hostname).flatMap labelBytes ++ [0]))
    (dnsHeaderSize + n) type
  have hRet := @toInt32_eq (dnsHeaderSize + n + 4) (by omega)
  rw [bind_of_ok hQuestion, hRet, Nat.mod_eq_of_lt (by omega), Nat.add_comm n]
  exact ⟨_, _, rfl⟩

theorem dnsBuildQuery_rejected (h : ¬ Accepted hostname bufLen) :
    ∃ ret < 0, (dnsBuildQuery queryId hostname type bufLen buf).result = .ok ret := by
  rw [dnsBuildQuery]
  by_cases hRoom : bufLen < dnsHeaderSize + dnsMaxNameLen + 4
  · rw [if_pos hRoom]
    exact ⟨-1, by decide, rfl⟩
  obtain ⟨headerLog, hHeader, -⟩ := @writeHeader_lays buf queryId
  rw [if_neg hRoom, bind_of_ok hHeader]
  by_cases hFits : bufLen - dnsHeaderSize ≤ queryLength hostname
  · obtain ⟨buf', nameLog, hName⟩ := @dnsEncodeName_fails (lay buf 0 (headerBytes queryId)) dnsHeaderSize
      (bufLen - dnsHeaderSize) hostname (by omega) hFits
    rw [bind_of_ok hName, if_pos (by decide)]
    exact ⟨-1, by decide, rfl⟩
  obtain ⟨nameLog, hName, -⟩ := @dnsEncodeName_lays (lay buf 0 (headerBytes queryId)) dnsHeaderSize
    (bufLen - dnsHeaderSize) hostname (Nat.not_le.mp hFits)
  rw [bind_of_ok hName]
  by_cases hNeg : toInt32 (queryLength hostname + 1) < 0
  · rw [if_pos hNeg]
    exact ⟨-1, by decide, rfl⟩
  · have hSmall := (toInt32_nonneg_iff (queryLength hostname + 1)).mp (Int.not_lt.mp hNeg)
    rw [if_neg hNeg, toInt32_eq hSmall, Int.toNat_natCast]
    obtain ⟨log, hQuestion⟩ := @writeQuestion_run
      (lay (lay buf 0 (headerBytes queryId)) dnsHeaderSize ((hostLabels hostname).flatMap labelBytes ++ [0]))
      (dnsHeaderSize + (queryLength hostname + 1) % 2 ^ 32) type
    rw [bind_of_ok hQuestion]
    refine ⟨toInt32 (dnsHeaderSize + (queryLength hostname + 1) % 2 ^ 32 + 4), ?_, rfl⟩
    have hBig : ¬ (queryLength hostname + 1) % 2 ^ 32 + dnsHeaderSize + 4 < 2 ^ 31 := fun hInt =>
      h ⟨Nat.not_lt.mp hRoom, by omega, hInt⟩
    rw [← Int.not_le, toInt32_nonneg_iff]
    have hHeaderSize : dnsHeaderSize = 12 := rfl
    omega

theorem dnsBuildQuery_lays (h : Accepted hostname bufLen) (hShort : queryLength hostname + 1 ≤ dnsMaxNameLen) :
    Lays (dnsBuildQuery queryId hostname type bufLen) buf (queryLength hostname + 1 + dnsHeaderSize + 4 : Nat) 0
      (headerBytes queryId ++ (((hostLabels hostname).flatMap labelBytes ++ [0]) ++ (wire16 type ++ wire16 1))) := by
  have hFits := h.fits
  have hMax : dnsMaxNameLen = 255 := rfl
  have hHeader : dnsHeaderSize = 12 := rfl
  have hMod : (queryLength hostname + 1) % 2 ^ 32 = queryLength hostname + 1 := Nat.mod_eq_of_lt (by omega)
  have hValue : toInt32 (queryLength hostname + 1) = (queryLength hostname + 1 : Nat) := by
    rw [toInt32_eq (by omega), hMod]
  rw [dnsBuildQuery, if_neg (Nat.not_lt.mpr h.room)]
  refine writeHeader_lays.bind (Lays.bind (dnsEncodeName_lays (by omega)) ?_)
  have hPos : dnsHeaderSize + (queryLength hostname + 1) =
      0 + (headerBytes queryId).length + ((hostLabels hostname).flatMap labelBytes ++ [0]).length := by
    rw [List.length_append, ← wireLength, wireLength_hostLabels]
    rfl
  have hRet : toInt32 (dnsHeaderSize + (queryLength hostname + 1) + 4) =
      (queryLength hostname + 1 + dnsHeaderSize + 4 : Nat) := by
    rw [toInt32_eq (by omega), Nat.mod_eq_of_lt (by omega), Nat.add_comm dnsHeaderSize]
  rw [hValue, if_neg (by omega), Int.toNat_natCast, hPos]
  refine writeQuestion_lays.thenPure _ ?_
  rw [← hPos, hRet]

theorem length_joinLabels_le (labels : List (List UInt8)) : (joinLabels labels).length ≤ wireLength labels := by
  have hTail : ∀ labels : List (List UInt8), (labels.flatMap (dot :: ·)).length = wireLength labels := by
    intro labels
    rw [wireLength, List.length_flatMap, List.length_flatMap]
    rfl
  cases labels with
  | nil => exact Nat.zero_le _
  | cons label labels =>
    rw [joinLabels, List.length_append, hTail, wireLength_cons]
    omega

theorem dnsDecodeName_labels {response : Mem} {responseLen : Nat} (h : Encodes labels hostname)
    (hLies : Lies response dnsHeaderSize (labels.flatMap labelBytes ++ [0]))
    (hIn : dnsHeaderSize + wireLength labels < responseLen) :
    ∃ fuel name' log, dnsDecodeName response responseLen dnsHeaderSize 256 fuel name =
        ⟨.ok (wireLength labels + 1 : Nat), name', log⟩ ∧
      Lies name' 0 (withoutDot hostname ++ [0]) := by
  have hTotal := h.total
  have hMax : dnsMaxNameLen = 255 := rfl
  have hText : decodedText 0 labels = withoutDot hostname := by
    rw [h.withoutDot_eq, decodedText_zero fun label hLabel => (h.size label hLabel).1]
  have hLength : (decodedText 0 labels).length ≤ wireLength labels := by
    rw [hText, h.withoutDot_eq]
    exact length_joinLabels_le labels
  obtain ⟨log, hRun⟩ := @decodeLoop_labels response name responseLen 255 ⟨dnsHeaderSize, 0, 0, false⟩ labels h.size hLies
    hIn (show 0 + (decodedText 0 labels).length ≤ 255 by omega) rfl
  have hValue : toInt32 (0 + wireLength labels + 1) = (wireLength labels + 1 : Nat) := by
    rw [toInt32_eq (by omega), Nat.mod_eq_of_lt (by omega), Nat.zero_add]
  refine ⟨labels.length + 1, lay name 0 (decodedText 0 labels ++ [0]), log, hRun.trans ?_, ?_⟩
  · rw [hValue]
  · rw [← hText]
    exact lies_lay

end Build

/-! ### Right queries -/

/-- A query that is built stays inside its buffer and asks about the hostname, and one for a hostname without an
encoding is not built. -/
structure QueryRight (queryId type : UInt16) (hostname : List UInt8) (bufLen : Nat) : Prop where
  built : ∀ buf ret packet log, dnsBuildQuery queryId hostname type bufLen buf = ⟨.ok ret, packet, log⟩ → 0 ≤ ret →
    (∀ e ∈ log, e.Fits 0 bufLen) ∧ ∃ labels, Encodes labels hostname ∧
      ret = (dnsHeaderSize + (wireLength labels + 1) + 4 : Nat) ∧
      Lies packet dnsHeaderSize (labels.flatMap labelBytes ++ [0] ++ (wire16 type ++ wire16 1)) ∧
      ∀ name, ∃ fuel name' log', dnsDecodeName packet ret.toNat dnsHeaderSize 256 fuel name =
          ⟨.ok (wireLength labels + 1 : Nat), name', log'⟩ ∧
        Lies name' 0 (withoutDot hostname ++ [0])
  refused : (¬ ∃ labels, Encodes labels hostname) →
    ∀ buf, ∃ ret < 0, (dnsBuildQuery queryId hostname type bufLen buf).result = .ok ret

section Right

variable {queryId type : UInt16} {hostname : List UInt8} {bufLen : Nat} {labels : List (List UInt8)}

theorem Encodes.not_dot (h : Encodes labels [dot]) : wireLength labels ≠ queryLength [dot] := by
  intro hLength
  have hOne : queryLength [dot] = 1 := by decide
  cases labels with
  | nil => rw [hOne] at hLength; cases hLength
  | cons label labels =>
    have hFirst := (h.size label List.mem_cons_self).1
    rw [wireLength_cons] at hLength
    omega

theorem queryRight_of_encodes (hAccepted : Accepted hostname bufLen) (h : Encodes labels hostname) (hDot : hostname ≠ [dot]) :
    QueryRight queryId type hostname bufLen := by
  have hLabels := h.hostLabels_eq hDot
  have hTotal := h.total
  have hMax : dnsMaxNameLen = 255 := rfl
  have hRoom := hAccepted.room
  have hLength : queryLength hostname = wireLength labels := by rw [← wireLength_hostLabels, hLabels]
  refine ⟨fun buf ret packet log hRun hRet => ?_, fun hNone => absurd ⟨labels, h⟩ hNone⟩
  obtain ⟨log', hRun', hFits⟩ := @dnsBuildQuery_lays buf bufLen queryId type hostname hAccepted (by omega)
  obtain ⟨hOk, hPacket, rfl⟩ := Outcome.mk.inj (hRun'.symm.trans hRun)
  have hValue := Except.ok.inj hOk
  rw [hLength, hLabels] at *
  have hLies : Lies packet dnsHeaderSize (labels.flatMap labelBytes ++ [0] ++ (wire16 type ++ wire16 1)) := by
    rw [← hPacket]
    exact (lies_append.mp lies_lay).2
  have hRetNat : ret = (dnsHeaderSize + (wireLength labels + 1) + 4 : Nat) := by
    rw [← hValue, Nat.add_comm dnsHeaderSize]
  refine ⟨fun e he => (hFits e he).mono ?_, labels, h, hRetNat, hLies, fun name => ?_⟩
  · have hBytes : (headerBytes queryId ++ (labels.flatMap labelBytes ++ [0] ++ (wire16 type ++ wire16 1))).length =
        dnsHeaderSize + (wireLength labels + 1 + 4) := by
      rw [List.length_append, List.length_append, List.length_append, ← wireLength]
      rfl
    rw [hBytes]
    omega
  · rw [hRetNat, Int.toNat_natCast]
    exact dnsDecodeName_labels h (lies_append.mp hLies).1 (by omega)

/-- The query is right exactly if it is refused for a length, or the name is a sequence of labels and not a dot alone. -/
theorem queryRight_iff (queryId type : UInt16) (hostname : List UInt8) (bufLen : Nat) :
    QueryRight queryId type hostname bufLen ↔
      bufLen < dnsHeaderSize + dnsMaxNameLen + 4 ∨ bufLen ≤ dnsHeaderSize + queryLength hostname ∨
        2 ^ 31 ≤ (queryLength hostname + 1) % 2 ^ 32 + dnsHeaderSize + 4 ∨
        hostname ≠ [dot] ∧ ∃ labels, Encodes labels hostname := by
  by_cases hAccepted : Accepted hostname bufLen
  · have hNot : ¬ (bufLen < dnsHeaderSize + dnsMaxNameLen + 4) ∧ ¬ (bufLen ≤ dnsHeaderSize + queryLength hostname) ∧
        ¬ (2 ^ 31 ≤ (queryLength hostname + 1) % 2 ^ 32 + dnsHeaderSize + 4) :=
      ⟨Nat.not_lt.mpr hAccepted.room, Nat.not_le.mpr hAccepted.fits, Nat.not_le.mpr hAccepted.int⟩
    rw [or_iff_right hNot.1, or_iff_right hNot.2.1, or_iff_right hNot.2.2]
    constructor
    · intro h
      obtain ⟨packet, log, hRun⟩ := @dnsBuildQuery_accepted (fun _ => 0) bufLen queryId type hostname hAccepted
      obtain ⟨labels, hEncodes⟩ : ∃ labels, Encodes labels hostname := by
        by_contra hNone
        obtain ⟨ret, hNeg, hRet⟩ := h.refused hNone fun _ => 0
        rw [hRun] at hRet
        have hValue := Except.ok.inj hRet
        omega
      refine ⟨?_, labels, hEncodes⟩
      rintro rfl
      obtain ⟨-, labels, hEncodes, hRet, -⟩ := h.built _ _ _ _ hRun (Int.natCast_nonneg _)
      have hOne : queryLength [dot] = 1 := by decide
      have hNot := hEncodes.not_dot
      rw [hOne] at hRet hNot
      omega
    · rintro ⟨hDot, labels, h⟩
      exact queryRight_of_encodes hAccepted h hDot
  · have hCases : bufLen < dnsHeaderSize + dnsMaxNameLen + 4 ∨ bufLen ≤ dnsHeaderSize + queryLength hostname ∨
        2 ^ 31 ≤ (queryLength hostname + 1) % 2 ^ 32 + dnsHeaderSize + 4 := by
      by_contra hNone
      obtain ⟨hRoom, hNone⟩ := not_or.mp hNone
      obtain ⟨hFits, hInt⟩ := not_or.mp hNone
      exact hAccepted ⟨Nat.not_lt.mp hRoom, Nat.not_le.mp hFits, Nat.not_le.mp hInt⟩
    have hRefused : ∀ buf, ∃ ret < 0, (dnsBuildQuery queryId hostname type bufLen buf).result = .ok ret :=
      fun buf => dnsBuildQuery_rejected hAccepted
    refine iff_of_true ⟨fun buf ret packet log hRun hRet => ?_, fun _ => hRefused⟩
      (hCases.imp_right fun h => h.imp_right Or.inl)
    obtain ⟨ret', hNeg, hResult⟩ := hRefused buf
    rw [hRun] at hResult
    have hValue := Except.ok.inj hResult
    omega

theorem dnsBuildQuery_emptyLabel : ¬ QueryRight 1 1 [0x61, dot, dot, 0x62] 512 := by
  intro h
  have hNone : ¬ ∃ labels, Encodes labels [0x61, dot, dot, 0x62] := by
    rintro ⟨labels, hEncodes⟩
    have hLabels := hEncodes.hostLabels_eq (by decide)
    have hEmpty := hEncodes.size [] (by rw [← hLabels]; decide)
    exact absurd hEmpty.1 (by decide)
  obtain ⟨ret, hNeg, hRet⟩ := h.refused hNone fun _ => 0
  obtain ⟨packet, log, hRun⟩ := @dnsBuildQuery_accepted (fun _ => 0) 512 1 1 [0x61, dot, dot, 0x62]
    ⟨by decide, by decide, by decide⟩
  rw [hRun] at hRet
  have hValue := Except.ok.inj hRet
  omega

end Right

end UnixOS.Net
