import UnixOS.Lib.AccessLog
import UnixOS.Lib.StepRuns
import UnixOS.Net.DnsResponse

/-! # What the parsers of DNS messages touch

`dns_decode_name` of `kernel/net/dns.c`, and `dns_parse_response` once more, with a record of every byte of the message
that they read and every byte of the name buffer that they write.
-/

namespace UnixOS.Net

open ByteMemory AccessLog

inductive DnsAccess
  | read (i : Nat)
  | write (i : Nat)

/-- A computation with a buffer. It stops only for want of fuel. -/
abbrev DnsRun (α : Type) : Type := Run Mem Unit DnsAccess α

def toInt32 (n : Nat) : Int := Int.bmod n (2 ^ 32)

def readResponse (response : Mem) (i : Nat) : DnsRun UInt8 := do
  Run.access (.read i)
  pure (response i)

def writeByte (i : Nat) (c : UInt8) : DnsRun Unit := do
  Run.access (.write i)
  Run.modify fun name => Function.update name i c

/-! ### Decoding a name -/

structure DecodeCursor where
  offset : Nat
  pos : Nat
  readLen : Nat
  jumped : Bool

def pointerTarget (high low : UInt8) : Nat := (high &&& 0x3F).toNat <<< 8 ||| low.toNat

def decodeDot (last pos : Nat) : DnsRun Nat :=
  if 0 < pos ∧ pos < last then do
    writeByte pos 0x2E
    pure (pos + 1)
  else pure pos

/-- The loop over the bytes of a label, with how many of them are left; it gives the new offset and position. -/
def decodeLabel (response : Mem) (responseLen last : Nat) : Nat → Nat → Nat → DnsRun (Nat × Nat)
  | 0, offset, pos => pure (offset, pos)
  | left + 1, offset, pos =>
    if offset < responseLen then
      if pos < last then do
        let b ← readResponse response offset
        writeByte pos b
        decodeLabel response responseLen last left (offset + 1) (pos + 1)
      else decodeLabel response responseLen last left (offset + 1) pos
    else pure (offset, pos)

inductive DecodeRound
  | leave (c : DecodeCursor)
  | fail
  | next (c : DecodeCursor)

def decodeRound (response : Mem) (responseLen last : Nat) (c : DecodeCursor) : DnsRun DecodeRound :=
  if c.offset < responseLen then do
    let len ← readResponse response c.offset
    if len = 0 then pure (.leave { c with readLen := if c.jumped then c.readLen else c.readLen + 1 })
    else if len &&& 0xC0 = 0xC0 then
      if c.offset + 1 ≥ responseLen then pure .fail
      else do
        let low ← readResponse response (c.offset + 1)
        pure (.next { c with
          offset := pointerTarget len low
          readLen := if c.jumped then c.readLen else c.readLen + 2
          jumped := true })
    else do
      let dotted ← decodeDot last c.pos
      let (offset, pos) ← decodeLabel response responseLen last len.toNat (c.offset + 1) dotted
      pure (.next { c with
        offset := offset
        pos := pos
        readLen := if c.jumped then c.readLen else c.readLen + (1 + len.toNat) })
  else pure (.leave c)

def decodeLoop (response : Mem) (responseLen last : Nat) : Nat → DecodeCursor → DnsRun Int
  | 0, _ => Run.stop ()
  | fuel + 1, c => do
    let round ← decodeRound response responseLen last c
    match round with
    | .fail => pure (-1)
    | .leave c => do
      writeByte c.pos 0
      pure (toInt32 c.readLen)
    | .next c => decodeLoop response responseLen last fuel c

/-- The name buffer has `nameLen` bytes. -/
def dnsDecodeName (response : Mem) (responseLen offset : Nat) (nameLen : UInt64) (fuel : Nat) : DnsRun Int :=
  decodeLoop response responseLen (nameLen - 1).toNat fuel ⟨offset, 0, 0, false⟩

/-! ### Parsing a response -/

def scanLabels (response : Mem) (len : Nat) : Nat → Nat → DnsRun (Nat × Bool)
  | 0, _ => Run.stop ()
  | fuel + 1, pos =>
    if pos < len then do
      let b ← readResponse response pos
      if b = 0 then pure (pos, false)
      else if b &&& 0xC0 = 0xC0 then pure (pos + 2, true)
      else scanLabels response len fuel (pos + 1 + b.toNat)
    else pure (pos, false)

def scanEnd (response : Mem) (pos : Nat) : DnsRun Nat := do
  let b ← readResponse response pos
  pure (if b = 0 then pos + 1 else pos)

def scanPast (response : Mem) (stop : Nat × Bool) : DnsRun Nat :=
  if stop.2 then pure stop.1 else scanEnd response stop.1

def scanQuestions (response : Mem) (len : Nat) : Nat → Nat → DnsRun Nat
  | 0, pos => pure pos
  | n + 1, pos => do
    let stop ← scanLabels response len (len + 1) pos
    let pos ← scanEnd response stop.1
    scanQuestions response len n (pos + 4)

def readBig16 (response : Mem) (pos : Nat) : DnsRun UInt16 := do
  let high ← readResponse response pos
  let low ← readResponse response (pos + 1)
  pure ((high.toUInt16 <<< 8) ||| low.toUInt16)

def readBig32 (response : Mem) (pos : Nat) : DnsRun UInt32 := do
  let b0 ← readResponse response pos
  let b1 ← readResponse response (pos + 1)
  let b2 ← readResponse response (pos + 2)
  let b3 ← readResponse response (pos + 3)
  pure ((b0.toUInt32 <<< 24) ||| (b1.toUInt32 <<< 16) ||| (b2.toUInt32 <<< 8) ||| b3.toUInt32)

def scanAnswers (response : Mem) (len : Nat) : Nat → Nat → DnsRun (Option UInt32)
  | 0, _ => pure none
  | n + 1, pos =>
    if pos < len then do
      let stop ← scanLabels response len (len + 1) pos
      let pos ← scanPast response stop
      if pos + 10 > len then pure none
      else do
        let type ← readBig16 response pos
        let rdlength ← readBig16 response (pos + 8)
        if type = dnsTypeA ∧ rdlength = 4 then do
          let ip ← readBig32 response (pos + 10)
          pure (some ip)
        else scanAnswers response len n (pos + 10 + rdlength.toNat)
    else pure none

def readHeader (response : Mem) (pos : Nat) : DnsRun UInt16 := do
  Run.access (.read pos)
  Run.access (.read (pos + 1))
  pure (ntohs (load16 response pos))

def scanResponse (response : Mem) (len : Nat) : DnsRun (Option UInt32) :=
  if len < dnsHeaderSize then pure none
  else do
    let flags ← readHeader response 2
    if flags &&& dnsFlagQr = 0 then pure none
    else if flags &&& dnsRcodeMask ≠ 0 then pure none
    else do
      let qdcount ← readHeader response 4
      let ancount ← readHeader response 6
      if ancount = 0 then pure none
      else do
        let pos ← scanQuestions response len qdcount.toNat dnsHeaderSize
        scanAnswers response len ancount.toNat pos

/-! ### Accesses inside their bounds -/

def DnsAccess.Fits (responseLen nameLen : Nat) : DnsAccess → Prop
  | .read i => i < responseLen
  | .write i => i < nameLen

def nextOffset (response : Mem) (responseLen offset : Nat) : Option Nat :=
  if offset < responseLen then
    if response offset = 0 then none
    else if response offset &&& 0xC0 = 0xC0 then
      if offset + 1 ≥ responseLen then none else some (pointerTarget (response offset) (response (offset + 1)))
    else some (min (offset + 1 + (response offset).toNat) responseLen)
  else none

section Decode

variable {response name : Mem} {responseLen last offset pos left : Nat} {c : DecodeCursor}

theorem fill_cons (b : UInt8) (n : Nat) (f : Nat → UInt8) (hf : f 0 = b) :
    fill (Function.update name pos b) (pos + 1) n (fun k => f (k + 1)) = fill name pos (n + 1) f := by
  funext x
  unfold fill
  by_cases hx : x = pos
  · subst hx
    rw [if_neg (by omega), if_pos (by omega), Function.update_self, Nat.sub_self, hf]
  · rw [Function.update_of_ne hx]
    by_cases hIn : pos + 1 ≤ x ∧ x < pos + 1 + n
    · rw [if_pos hIn, if_pos (by omega)]
      exact congrArg f (show x - (pos + 1) + 1 = x - pos by omega)
    · rw [if_neg hIn, if_neg (by omega)]

theorem fill_none (f : Nat → UInt8) : fill name pos 0 f = name :=
  funext fun _ => if_neg (by omega)

theorem bind_readResponse {α : Type} {f : UInt8 → DnsRun α} (i : Nat) :
    (readResponse response i >>= f) name = (f (response i) name).after [.read i] :=
  rfl

theorem bind_writeByte {α : Type} {f : Unit → DnsRun α} (i : Nat) (b : UInt8) :
    (writeByte i b >>= f) name = (f () (Function.update name i b)).after [.write i] :=
  rfl

theorem decodeLabel_run (hOffset : offset ≤ responseLen) (hPos : pos ≤ last) :
    ∃ log, decodeLabel response responseLen last left offset pos name =
        ⟨.ok (min (offset + left) responseLen, min (pos + min left (responseLen - offset)) last),
          fill name pos (min (min left (responseLen - offset)) (last - pos)) (fun k => response (offset + k)), log⟩ ∧
      ∀ e ∈ log, e.Fits responseLen (last + 1) := by
  induction left generalizing offset pos name with
  | zero =>
    refine ⟨[], ?_, fun e he => absurd he List.not_mem_nil⟩
    rw [Nat.add_zero, Nat.zero_min, Nat.zero_min, Nat.add_zero, fill_none, Nat.min_eq_left hOffset, Nat.min_eq_left hPos]
    rfl
  | succ left ih =>
    rw [decodeLabel]
    by_cases hIn : offset < responseLen
    · by_cases hRoom : pos < last
      · obtain ⟨log, hRun, hFits⟩ := @ih (Function.update name pos (response offset)) (offset + 1) (pos + 1) hIn hRoom
        refine ⟨.read offset :: .write pos :: log, ?_, List.forall_mem_cons.mpr
          ⟨hIn, List.forall_mem_cons.mpr ⟨Nat.lt_succ_of_lt hRoom, hFits⟩⟩⟩
        have hBytes : (fun k => response (offset + 1 + k)) = fun k => response (offset + (k + 1)) := by
          funext k
          rw [Nat.add_assoc, Nat.add_comm 1 k]
        rw [if_pos hIn, if_pos hRoom, bind_readResponse, bind_writeByte, hRun, hBytes,
          fill_cons (response offset) _ (fun k => response (offset + k)) rfl]
        rw [show offset + 1 + left = offset + (left + 1) by omega,
          show pos + 1 + min left (responseLen - (offset + 1)) = pos + min (left + 1) (responseLen - offset) by omega,
          show min (min left (responseLen - (offset + 1))) (last - (pos + 1)) + 1 =
            min (min (left + 1) (responseLen - offset)) (last - pos) by omega]
        rfl
      · obtain ⟨log, hRun, hFits⟩ := @ih name (offset + 1) pos hIn hPos
        refine ⟨log, ?_, hFits⟩
        rw [if_pos hIn, if_neg hRoom, hRun, show last - pos = 0 by omega, Nat.min_zero, Nat.min_zero, fill_none, fill_none,
          show offset + 1 + left = offset + (left + 1) by omega,
          show min (pos + min left (responseLen - (offset + 1))) last =
            min (pos + min (left + 1) (responseLen - offset)) last by omega]
    · refine ⟨[], ?_, fun e he => absurd he List.not_mem_nil⟩
      rw [if_neg hIn, show responseLen - offset = 0 by omega, show min (pos + min (left + 1) 0) last = pos by omega,
        Nat.min_zero, Nat.zero_min, fill_none, show min (offset + (left + 1)) responseLen = offset by omega]
      rfl

theorem decodeDot_run (hPos : pos ≤ last) : ∃ pos' name' log, decodeDot last pos name = ⟨.ok pos', name', log⟩ ∧ pos' ≤ last ∧
    ∀ e ∈ log, e.Fits responseLen (last + 1) := by
  unfold decodeDot
  split
  · refine ⟨pos + 1, _, [.write pos], rfl, by omega, List.forall_mem_singleton.mpr ?_⟩
    exact Nat.lt_succ_of_le hPos
  · exact ⟨pos, name, [], rfl, hPos, fun e he => absurd he List.not_mem_nil⟩

def DecodeRound.Follows (last : Nat) (next : Option Nat) : DecodeRound → Prop
  | .leave c => next = none ∧ c.pos ≤ last
  | .fail => next = none
  | .next c => next = some c.offset ∧ c.pos ≤ last

theorem decodeRound_run (hPos : c.pos ≤ last) :
    ∃ r name' log, decodeRound response responseLen last c name = ⟨.ok r, name', log⟩ ∧
      r.Follows last (nextOffset response responseLen c.offset) ∧ ∀ e ∈ log, e.Fits responseLen (last + 1) := by
  rw [decodeRound, nextOffset]
  by_cases hIn : c.offset < responseLen
  · rw [if_pos hIn, if_pos hIn, bind_readResponse]
    by_cases hZero : response c.offset = 0
    · rw [if_pos hZero, if_pos hZero]
      exact ⟨_, _, _, rfl, ⟨rfl, hPos⟩, List.forall_mem_singleton.mpr hIn⟩
    rw [if_neg hZero, if_neg hZero]
    by_cases hPointer : response c.offset &&& 0xC0 = 0xC0
    · rw [if_pos hPointer, if_pos hPointer]
      by_cases hShort : c.offset + 1 ≥ responseLen
      · rw [if_pos hShort, if_pos hShort]
        exact ⟨_, _, _, rfl, rfl, List.forall_mem_singleton.mpr hIn⟩
      · rw [if_neg hShort, if_neg hShort]
        exact ⟨_, _, _, rfl, ⟨rfl, hPos⟩, List.forall_mem_cons.mpr
          ⟨hIn, List.forall_mem_singleton.mpr (Nat.lt_of_not_ge hShort)⟩⟩
    · rw [if_neg hPointer, if_neg hPointer]
      obtain ⟨dotted, dottedName, dotLog, hDot, hDotted, hDotFits⟩ := @decodeDot_run name responseLen last c.pos hPos
      obtain ⟨log, hLabel, hFits⟩ := @decodeLabel_run response dottedName responseLen last (c.offset + 1) dotted
        (response c.offset).toNat hIn hDotted
      rw [bind_of_ok hDot, bind_of_ok hLabel]
      refine ⟨_, _, _, rfl, ⟨rfl, Nat.min_le_right _ _⟩, List.forall_mem_append.mpr ⟨List.forall_mem_singleton.mpr hIn, ?_⟩⟩
      exact List.forall_mem_append.mpr ⟨hDotFits, List.forall_mem_append.mpr ⟨hFits, fun e he => nomatch he⟩⟩
  · rw [if_neg hIn, if_neg hIn]
    exact ⟨_, _, _, rfl, ⟨rfl, hPos⟩, fun e he => absurd he List.not_mem_nil⟩

theorem decodeLoop_fits (fuel : Nat) (hPos : c.pos ≤ last) :
    Keeps (DnsAccess.Fits responseLen (last + 1)) (decodeLoop response responseLen last fuel c) name := by
  induction fuel generalizing c name with
  | zero => exact (keeps_stop ()).mpr trivial
  | succ fuel ih =>
    obtain ⟨r, name', log, hRound, hFollows, hFits⟩ := @decodeRound_run response name responseLen last c hPos
    rw [Keeps, decodeLoop, bind_of_ok hRound]
    refine List.forall_mem_append.mpr ⟨hFits, ?_⟩
    cases r with
    | leave c' => exact List.forall_mem_singleton.mpr (Nat.lt_succ_of_le hFollows.2)
    | fail => exact fun e he => absurd he List.not_mem_nil
    | next c' => exact ih hFollows.2

theorem decodeLoop_returns_iff (fuel : Nat) (hPos : c.pos ≤ last) :
    (∃ ret, (decodeLoop response responseLen last fuel c name).result = .ok ret) ↔
      StepRuns.EndsIn (nextOffset response responseLen) fuel c.offset := by
  induction fuel generalizing c name with
  | zero => exact iff_of_false (fun ⟨ret, h⟩ => nomatch h) id
  | succ fuel ih =>
    obtain ⟨r, name', log, hRound, hFollows, -⟩ := @decodeRound_run response name responseLen last c hPos
    rw [decodeLoop, bind_of_ok hRound, StepRuns.EndsIn]
    cases r with
    | leave c' =>
      rw [hFollows.1]
      exact iff_of_true ⟨_, rfl⟩ fun b hb => nomatch hb
    | fail =>
      rw [show nextOffset response responseLen c.offset = none from hFollows]
      exact iff_of_true ⟨_, rfl⟩ fun b hb => nomatch hb
    | next c' =>
      rw [hFollows.1]
      refine Iff.trans (ih hFollows.2) ⟨fun h b hb => ?_, fun h => h _ rfl⟩
      rwa [← Option.some.inj hb]

theorem pointerTarget_lt (high low : UInt8) : pointerTarget high low < 2 ^ 14 := by
  have hHigh : (high &&& 0x3F).toNat < 2 ^ 6 := by
    rw [UInt8.toNat_and]
    exact Nat.and_lt_two_pow _ (by decide)
  have hLow := low.toNat_lt
  rw [pointerTarget, ← Nat.shiftLeft_add_eq_or_of_lt low.toNat_lt, Nat.shiftLeft_eq]
  omega

theorem nextOffset_le {next : Nat} (h : nextOffset response responseLen offset = some next) :
    next ≤ max responseLen (2 ^ 14) := by
  unfold nextOffset at h
  split at h
  · split at h
    · cases h
    split at h
    · split at h
      · cases h
      · rw [← Option.some.inj h]
        exact le_max_of_le_right (Nat.le_of_lt (pointerTarget_lt _ _))
    · rw [← Option.some.inj h]
      exact le_max_of_le_left (Nat.min_le_right _ _)
  · cases h

theorem reached_finite (response : Mem) (responseLen offset : Nat) :
    {b | StateTransition.Reaches (nextOffset response responseLen) offset b}.Finite := by
  refine (Set.finite_le_nat (max offset (max responseLen (2 ^ 14)))).subset fun b hReach => ?_
  show b ≤ max offset (max responseLen (2 ^ 14))
  cases hReach with
  | refl => exact le_max_left _ _
  | tail _ hStep => exact le_max_of_le_right (nextOffset_le hStep)

end Decode

theorem dnsDecodeName_returns_iff (response name : Mem) (responseLen offset : Nat) (nameLen : UInt64) :
    (∃ fuel ret, (dnsDecodeName response responseLen offset nameLen fuel name).result = .ok ret) ↔
      StepRuns.Acyclic (nextOffset response responseLen) offset := by
  rw [← StepRuns.endsIn_iff_acyclic (reached_finite response responseLen offset)]
  exact exists_congr fun fuel => decodeLoop_returns_iff fuel (Nat.zero_le _)

theorem dnsDecodeName_fits (response name : Mem) (responseLen offset fuel : Nat) {nameLen : UInt64} (h : nameLen ≠ 0) :
    Keeps (DnsAccess.Fits responseLen nameLen.toNat) (dnsDecodeName response responseLen offset nameLen fuel) name := by
  have hPos : 0 < nameLen.toNat := Nat.pos_of_ne_zero fun hZero => h (UInt64.toNat_inj.mp hZero)
  have hLast : (nameLen - 1).toNat + 1 = nameLen.toNat := by
    have hLess := nameLen.toNat_lt
    rw [UInt64.toNat_sub_of_le nameLen 1 (UInt64.le_iff_toNat_le.mpr hPos)]
    exact Nat.sub_add_cancel hPos
  rw [← hLast]
  exact decodeLoop_fits fuel (Nat.zero_le _)

/-! ### Responses -/

def QuestionsInside (response : Mem) (len : Nat) : Nat → Nat → Prop
  | 0, _ => True
  | n + 1, pos =>
    let stop := (skipLabels response len len pos).1
    stop < len ∧ QuestionsInside response len n ((if response stop = 0 then stop + 1 else stop) + 4)

instance decidableQuestionsInside (response : Mem) (len : Nat) :
    (n pos : Nat) → Decidable (QuestionsInside response len n pos)
  | 0, _ => .isTrue trivial
  | n + 1, pos =>
    have := decidableQuestionsInside response len n
    inferInstanceAs (Decidable ((skipLabels response len len pos).1 < len ∧ QuestionsInside response len n _))

def behindName (response : Mem) (stop : Nat × Bool) : Nat :=
  if !stop.2 && response stop.1 = 0 then stop.1 + 1 else stop.1

/-- Behind the labels of a name that no pointer ends there is another byte of the message, and the data of the
first address record is part of it. -/
def AnswersInside (response : Mem) (len : Nat) : Nat → Nat → Prop
  | 0, _ => True
  | n + 1, pos =>
    let stop := skipLabels response len len pos
    let fields := behindName response stop
    pos < len →
      (stop.2 = false → stop.1 < len) ∧
        (fields + 10 ≤ len →
          if load16Big response fields = dnsTypeA ∧ load16Big response (fields + 8) = 4 then fields + 14 ≤ len
          else AnswersInside response len n (fields + 10 + (load16Big response (fields + 8)).toNat))

instance decidableAnswersInside (response : Mem) (len : Nat) : (n pos : Nat) → Decidable (AnswersInside response len n pos)
  | 0, _ => .isTrue trivial
  | n + 1, pos =>
    have := decidableAnswersInside response len n
    let stop := skipLabels response len len pos
    let fields := behindName response stop
    show Decidable (pos < len → (stop.2 = false → stop.1 < len) ∧ (fields + 10 ≤ len →
      if load16Big response fields = dnsTypeA ∧ load16Big response (fields + 8) = 4 then fields + 14 ≤ len
      else AnswersInside response len n (fields + 10 + (load16Big response (fields + 8)).toNat))) from inferInstance

def ParseInside (response : Mem) (len : Nat) : Prop :=
  dnsHeaderSize ≤ len → ntohs (load16 response 2) &&& dnsFlagQr ≠ 0 → ntohs (load16 response 2) &&& dnsRcodeMask = 0 →
    ntohs (load16 response 6) ≠ 0 →
      QuestionsInside response len (ntohs (load16 response 4)).toNat dnsHeaderSize ∧
        AnswersInside response len (ntohs (load16 response 6)).toNat
          (skipQuestions response len (ntohs (load16 response 4)).toNat dnsHeaderSize)

instance decidableParseInside (response : Mem) (len : Nat) : Decidable (ParseInside response len) :=
  inferInstanceAs (Decidable (_ → _ → _ → _ → _ ∧ _))

section Parse

variable {response name : Mem} {len pos n fuel : Nat}

theorem scanLabels_run (hFuel : len ≤ pos + fuel) :
    ∃ log, scanLabels response len (fuel + 1) pos name = ⟨.ok (skipLabels response len fuel pos), name, log⟩ ∧
      ∀ e ∈ log, e.Fits len 0 := by
  induction fuel generalizing pos with
  | zero =>
    refine ⟨[], ?_, fun e he => nomatch he⟩
    rw [scanLabels, if_neg (by omega)]
    rfl
  | succ fuel ih =>
    rw [scanLabels, skipLabels]
    by_cases hIn : pos < len
    · rw [if_pos hIn, bind_readResponse]
      by_cases hZero : response pos = 0
      · rw [if_pos hZero, if_neg fun hMore => hMore.2 hZero]
        exact ⟨_, rfl, List.forall_mem_singleton.mpr hIn⟩
      have hMore : pos < len ∧ response pos ≠ 0 := ⟨hIn, hZero⟩
      rw [if_neg hZero, if_pos hMore]
      by_cases hPointer : response pos &&& 0xC0 = 0xC0
      · rw [if_pos hPointer, if_pos hPointer]
        exact ⟨_, rfl, List.forall_mem_singleton.mpr hIn⟩
      · rw [if_neg hPointer, if_neg hPointer]
        obtain ⟨log, hRun, hFits⟩ := @ih (pos + 1 + (response pos).toNat) (by omega)
        rw [hRun]
        exact ⟨_, rfl, List.forall_mem_cons.mpr ⟨hIn, hFits⟩⟩
    · rw [if_neg hIn, if_neg fun hMore => hIn hMore.1]
      exact ⟨[], rfl, fun e he => nomatch he⟩

theorem scanQuestions_run :
    ∃ log, scanQuestions response len n pos name = ⟨.ok (skipQuestions response len n pos), name, log⟩ ∧
      ((∀ e ∈ log, e.Fits len 0) ↔ QuestionsInside response len n pos) := by
  induction n generalizing pos with
  | zero => exact ⟨[], rfl, iff_of_true (fun e he => nomatch he) trivial⟩
  | succ n ih =>
    obtain ⟨labels, hLabels, hFits⟩ := @scanLabels_run response name len pos len (Nat.le_add_left len pos)
    rw [scanQuestions, skipQuestions, QuestionsInside, bind_of_ok hLabels]
    generalize (skipLabels response len len pos).1 = stop
    obtain ⟨log, hRun, hInside⟩ := @ih ((if response stop = 0 then stop + 1 else stop) + 4)
    refine ⟨labels ++ (.read stop :: log), ?_, ?_⟩
    · show ((scanQuestions response len n ((if response stop = 0 then stop + 1 else stop) + 4) name).after
        [.read stop]).after labels = _
      rw [hRun]
      rfl
    · rw [List.forall_mem_append, List.forall_mem_cons, hInside]
      exact ⟨fun h => h.2, fun h => ⟨hFits, h⟩⟩

theorem scanPast_run (stop : Nat × Bool) :
    ∃ log, scanPast response stop name =
        ⟨.ok (behindName response stop), name, log⟩ ∧
      ((∀ e ∈ log, e.Fits len 0) ↔ (stop.2 = false → stop.1 < len)) := by
  obtain ⟨stop, jumped⟩ := stop
  cases jumped with
  | true => exact ⟨[], rfl, iff_of_true (fun e he => nomatch he) fun h => nomatch h⟩
  | false =>
    refine ⟨[.read stop], ?_, ?_⟩
    · rw [scanPast, if_neg Bool.false_ne_true, scanEnd, bind_readResponse]
      by_cases hZero : response stop = 0
      · rw [if_pos hZero, behindName, hZero]
        rfl
      · rw [if_neg hZero, behindName, Bool.not_false, Bool.true_and, if_neg (by rwa [decide_eq_true_eq])]
        rfl
    · rw [List.forall_mem_singleton]
      exact ⟨fun h _ => h, fun h => h rfl⟩

theorem bind_readBig16 {α : Type} {f : UInt16 → DnsRun α} (i : Nat) :
    (readBig16 response i >>= f) name = (f (load16Big response i) name).after [.read i, .read (i + 1)] :=
  rfl

def big32 (i : Nat) : List DnsAccess := [.read i, .read (i + 1), .read (i + 2), .read (i + 3)]

theorem big32_fits {i : Nat} : (∀ e ∈ big32 (i + 10), e.Fits len 0) ↔ i + 14 ≤ len := by
  simp only [big32, DnsAccess.Fits, List.forall_mem_cons, List.not_mem_nil, false_implies, implies_true, and_true]
  omega

theorem scanAnswers_run :
    ∃ log, scanAnswers response len n pos name =
        ⟨.ok ((findAnswer response len n pos).map fun pos =>
          ((response pos).toUInt32 <<< 24) ||| ((response (pos + 1)).toUInt32 <<< 16) |||
            ((response (pos + 2)).toUInt32 <<< 8) ||| (response (pos + 3)).toUInt32), name, log⟩ ∧
      ((∀ e ∈ log, e.Fits len 0) ↔ AnswersInside response len n pos) := by
  induction n generalizing pos with
  | zero => exact ⟨[], rfl, iff_of_true (fun e he => nomatch he) trivial⟩
  | succ n ih =>
    rw [scanAnswers, findAnswer, AnswersInside]
    by_cases hIn : pos < len
    · obtain ⟨labels, hLabels, hFits⟩ := @scanLabels_run response name len pos len (Nat.le_add_left len pos)
      rw [if_pos hIn, if_pos hIn, bind_of_ok hLabels, imp_iff_right hIn]
      obtain ⟨past, hPast, hPastFits⟩ := @scanPast_run response name len (skipLabels response len len pos)
      dsimp only
      rw [bind_of_ok hPast, ← hPastFits, ← behindName]
      generalize behindName response (skipLabels response len len pos) = pos
      by_cases hEnd : pos + 10 > len
      · rw [if_pos hEnd, if_pos hEnd]
        refine ⟨labels ++ (past ++ []), rfl, ?_⟩
        rw [List.append_nil, List.forall_mem_append]
        exact ⟨fun h => ⟨h.2, fun hMore => absurd hEnd (Nat.not_lt.mpr hMore)⟩, fun h => ⟨hFits, h.1⟩⟩
      rw [if_neg hEnd, if_neg hEnd, imp_iff_right (by omega), bind_readBig16, bind_readBig16]
      have hFields : ∀ e ∈ [DnsAccess.read pos, .read (pos + 1)] ++ [.read (pos + 8), .read (pos + 8 + 1)],
          e.Fits len 0 := by
        simp only [DnsAccess.Fits, List.cons_append, List.nil_append, List.forall_mem_cons, List.not_mem_nil,
          false_implies, implies_true, and_true]
        omega
      by_cases hA : load16Big response pos = dnsTypeA ∧ load16Big response (pos + 8) = 4
      · rw [if_pos hA, if_pos hA, if_pos hA, ← big32_fits]
        refine ⟨labels ++ (past ++ ([.read pos, .read (pos + 1)] ++ ([.read (pos + 8), .read (pos + 8 + 1)] ++
          big32 (pos + 10)))), rfl, ?_⟩
        rw [← List.append_assoc [DnsAccess.read pos, _], List.forall_mem_append, List.forall_mem_append,
          List.forall_mem_append, and_iff_right hFits, and_iff_right hFields]
      · obtain ⟨log, hRun, hInside⟩ := @ih (pos + 10 + (load16Big response (pos + 8)).toNat)
        rw [if_neg hA, if_neg hA, if_neg hA, hRun, ← hInside]
        refine ⟨labels ++ (past ++ ([.read pos, .read (pos + 1)] ++ ([.read (pos + 8), .read (pos + 8 + 1)] ++ log))),
          rfl, ?_⟩
        rw [← List.append_assoc [DnsAccess.read pos, _], List.forall_mem_append, List.forall_mem_append,
          List.forall_mem_append, and_iff_right hFits, and_iff_right hFields]
    · rw [if_neg hIn, if_neg hIn]
      exact ⟨[], rfl, iff_of_true (fun e he => nomatch he) fun h => absurd h hIn⟩

theorem bind_readHeader {α : Type} {f : UInt16 → DnsRun α} (i : Nat) :
    (readHeader response i >>= f) name = (f (ntohs (load16 response i)) name).after [.read i, .read (i + 1)] :=
  rfl

theorem header_fits {i : Nat} (hLen : dnsHeaderSize ≤ len) (hi : i + 1 < dnsHeaderSize) :
    ∀ e ∈ [DnsAccess.read i, .read (i + 1)], e.Fits len 0 := by
  intro e he
  rcases List.mem_cons.mp he with rfl | he
  · exact show i < len by omega
  · rw [List.mem_singleton.mp he]
    exact show i + 1 < len by omega

theorem scanResponse_run :
    ∃ log, scanResponse response len name = ⟨.ok (dnsParseResponse response len), name, log⟩ ∧
      ((∀ e ∈ log, e.Fits len 0) ↔ ParseInside response len) := by
  rw [scanResponse, dnsParseResponse, dnsAnswerData, ParseInside]
  by_cases hLen : len < dnsHeaderSize
  · rw [if_pos hLen, if_pos hLen]
    exact ⟨[], rfl, iff_of_true (List.forall_mem_nil _) fun h => absurd hLen (Nat.not_lt.mpr h)⟩
  have hHeader := Nat.not_lt.mp hLen
  have hFlags := @header_fits len 2 hHeader (by decide)
  have hCounts := List.forall_mem_append.mpr ⟨@header_fits len 4 hHeader (by decide), @header_fits len 6 hHeader (by decide)⟩
  rw [if_neg hLen, if_neg hLen, imp_iff_right hHeader, bind_readHeader]
  dsimp only
  by_cases hQr : ntohs (load16 response 2) &&& dnsFlagQr = 0
  · rw [if_pos hQr, if_pos hQr]
    exact ⟨_, rfl, iff_of_true hFlags fun h => absurd hQr h⟩
  rw [if_neg hQr, if_neg hQr, imp_iff_right hQr]
  by_cases hRcode : ntohs (load16 response 2) &&& dnsRcodeMask ≠ 0
  · rw [if_pos hRcode, if_pos hRcode]
    exact ⟨_, rfl, iff_of_true hFlags fun h => absurd h hRcode⟩
  rw [if_neg hRcode, if_neg hRcode, imp_iff_right (not_not.mp hRcode), bind_readHeader, bind_readHeader]
  by_cases hNone : ntohs (load16 response 6) = 0
  · rw [if_pos hNone, if_pos hNone]
    exact ⟨_, rfl, iff_of_true (List.forall_mem_append.mpr ⟨hFlags, hCounts⟩) fun h => absurd hNone h⟩
  rw [if_neg hNone, if_neg hNone, imp_iff_right hNone]
  obtain ⟨questions, hQuestions, hQuestionsInside⟩ := @scanQuestions_run response name len dnsHeaderSize
    (ntohs (load16 response 4)).toNat
  obtain ⟨answers, hAnswers, hAnswersInside⟩ := @scanAnswers_run response name len
    (skipQuestions response len (ntohs (load16 response 4)).toNat dnsHeaderSize) (ntohs (load16 response 6)).toNat
  rw [bind_of_ok hQuestions, hAnswers]
  refine ⟨[.read 2, .read 3] ++ (([.read 4, .read 5] ++ [.read 6, .read 7]) ++ (questions ++ answers)), rfl, ?_⟩
  rw [List.forall_mem_append, List.forall_mem_append, and_iff_right hFlags, and_iff_right hCounts,
    List.forall_mem_append, hQuestionsInside, hAnswersInside]

end Parse

/-! ### Both parsers -/

/-- `dns_decode_name` returns, and stays inside the message and the name buffer, whatever is in the buffer. -/
def DecodeSafe (response : Mem) (responseLen offset : Nat) (nameLen : UInt64) : Prop :=
  ∀ name,
    (∃ fuel ret, (dnsDecodeName response responseLen offset nameLen fuel name).result = .ok ret) ∧
      ∀ fuel, Keeps (DnsAccess.Fits responseLen nameLen.toNat) (dnsDecodeName response responseLen offset nameLen fuel) name

/-- `dns_parse_response` returns, stays inside the message and writes no name. -/
def ParseSafe (response : Mem) (len : Nat) : Prop :=
  ∀ name, (∃ ret, (scanResponse response len name).result = .ok ret) ∧
    Keeps (DnsAccess.Fits len 0) (scanResponse response len) name

theorem parseSafe_iff (response : Mem) (len : Nat) : ParseSafe response len ↔ ParseInside response len := by
  constructor
  · intro h
    obtain ⟨log, hRun, hInside⟩ := @scanResponse_run response (fun _ => 0) len
    have hKeeps := (h fun _ => 0).2
    rw [Keeps, hRun] at hKeeps
    exact hInside.mp hKeeps
  · intro h name
    obtain ⟨log, hRun, hInside⟩ := @scanResponse_run response name len
    rw [Keeps, hRun]
    exact ⟨⟨_, rfl⟩, hInside.mpr h⟩

/-- Decoding a name is safe exactly if its pointers run in no circle, and parsing if every record it reads is inside the
response. -/
theorem dnsParsing_safe_iff (response : Mem) (len offset : Nat) {nameLen : UInt64} (h : nameLen ≠ 0) :
    (DecodeSafe response len offset nameLen ↔ StepRuns.Acyclic (nextOffset response len) offset) ∧
      (ParseSafe response len ↔ ParseInside response len) := by
  refine ⟨⟨fun hSafe => ?_, fun hAcyclic name => ⟨?_, fun fuel => ?_⟩⟩, parseSafe_iff response len⟩
  · exact (dnsDecodeName_returns_iff response (fun _ => 0) len offset nameLen).mp (hSafe fun _ => 0).1
  · exact (dnsDecodeName_returns_iff response name len offset nameLen).mpr hAcyclic
  · exact dnsDecodeName_fits response name len offset fuel h

theorem dnsParsing_safe_aliased :
    DecodeSafe (holding aliasedResponse.bytes) aliasedResponse.bytes.length 35 256 ∧
      ParseSafe (holding aliasedResponse.bytes) aliasedResponse.bytes.length := by
  obtain ⟨hDecode, hParse⟩ := dnsParsing_safe_iff (holding aliasedResponse.bytes) aliasedResponse.bytes.length 35
    (show (256 : UInt64) ≠ 0 by decide)
  exact ⟨hDecode.mpr (show StepRuns.EndsIn _ 5 35 by decide +kernel).acyclic, hParse.mpr (by decide +kernel)⟩

def cutResponse : List UInt8 := [0, 1, 0x81, 0x80, 0, 0, 0, 1, 0, 0, 0, 0, 5]

theorem dnsParsing_not_safe : ¬ DecodeSafe (holding [0xC0, 0]) 2 0 256 ∧ ¬ ParseSafe (holding cutResponse) 13 := by
  constructor
  · intro h
    have hAcyclic := (dnsDecodeName_returns_iff (holding [0xC0, 0]) (fun _ => 0) 2 0 256).mp (h fun _ => 0).1
    exact hAcyclic 0 Relation.ReflTransGen.refl (Relation.TransGen.single (by decide))
  · rw [parseSafe_iff]
    decide

end UnixOS.Net
