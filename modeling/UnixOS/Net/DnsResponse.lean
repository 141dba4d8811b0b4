import UnixOS.Net.TcpIp

/-! # DNS responses

`dns_parse_response` of `kernel/net/dns.c`: the names of the questions and of the records are skipped by two similar
loops, and the first address record is the answer.
-/

namespace UnixOS.Net

open ByteMemory

def dnsHeaderSize : Nat := 12
def dnsFlagQr : UInt16 := 0x8000
def dnsRcodeMask : UInt16 := 0x000F
def dnsTypeA : UInt16 := 1

/-- The loop over the labels of a name, and whether a compression pointer ended it. Each round goes on by at
least one byte. -/
def skipLabels (response : Mem) (len : Nat) : Nat → Nat → Nat × Bool
  | 0, pos => (pos, false)
  | fuel + 1, pos =>
    if pos < len ∧ response pos ≠ 0 then
      if response pos &&& 0xC0 = 0xC0 then (pos + 2, true)
      else skipLabels response len fuel (pos + 1 + (response pos).toNat)
    else (pos, false)

def skipQuestions (response : Mem) (len : Nat) : Nat → Nat → Nat
  | 0, pos => pos
  | n + 1, pos =>
    let pos := (skipLabels response len len pos).1
    let pos := if response pos = 0 then pos + 1 else pos
    skipQuestions response len n (pos + 4)

def load16Big (response : Mem) (pos : Nat) : UInt16 :=
  ((response pos).toUInt16 <<< 8) ||| (response (pos + 1)).toUInt16

def findAnswer (response : Mem) (len : Nat) : Nat → Nat → Option Nat
  | 0, _ => none
  | n + 1, pos =>
    if pos < len then
      let (pos, jumped) := skipLabels response len len pos
      let pos := if !jumped && response pos = 0 then pos + 1 else pos
      if pos + 10 > len then none
      else
        let type := load16Big response pos
        let rdlength := load16Big response (pos + 8)
        if type = dnsTypeA ∧ rdlength = 4 then some (pos + 10)
        else findAnswer response len n (pos + 10 + rdlength.toNat)
    else none

def dnsAnswerData (response : Mem) (len : Nat) : Option Nat :=
  if len < dnsHeaderSize then none
  else
    let flags := ntohs (load16 response 2)
    if flags &&& dnsFlagQr = 0 then none
    else if flags &&& dnsRcodeMask ≠ 0 then none
    else
      let qdcount := ntohs (load16 response 4)
      let ancount := ntohs (load16 response 6)
      if ancount = 0 then none
      else findAnswer response len ancount.toNat (skipQuestions response len qdcount.toNat dnsHeaderSize)

def dnsParseResponse (response : Mem) (len : Nat) : Option UInt32 :=
  (dnsAnswerData response len).map fun pos =>
    ((response pos).toUInt32 <<< 24) ||| ((response (pos + 1)).toUInt32 <<< 16) |||
      ((response (pos + 2)).toUInt32 <<< 8) ||| (response (pos + 3)).toUInt32

/-! ### Messages -/

def Lies (response : Mem) : Nat → List UInt8 → Prop
  | _, [] => True
  | pos, b :: bytes => response pos = b ∧ Lies response (pos + 1) bytes

structure DnsName where
  labels : List (List UInt8)
  pointer : Option (UInt8 × UInt8)

def labelBytes (label : List UInt8) : List UInt8 := UInt8.ofNat label.length :: label

namespace DnsName

def ending (name : DnsName) : List UInt8 :=
  match name.pointer with
  | none => [0]
  | some (high, low) => [high, low]

def bytes (name : DnsName) : List UInt8 := name.labels.flatMap labelBytes ++ name.ending

structure WellFormed (name : DnsName) : Prop where
  labels : ∀ label ∈ name.labels, 0 < label.length ∧ label.length < 64
  pointer : ∀ p ∈ name.pointer, p.1 &&& 0xC0 = 0xC0

end DnsName

structure DnsQuestion where
  name : DnsName
  qtype : UInt16
  qclass : UInt16

structure DnsRecord where
  name : DnsName
  type : UInt16
  rclass : UInt16
  ttl : UInt32
  rdata : List UInt8

def wire16 (v : UInt16) : List UInt8 := [(v >>> 8).toUInt8, v.toUInt8]

def wire32 (v : UInt32) : List UInt8 := [(v >>> 24).toUInt8, (v >>> 16).toUInt8, (v >>> 8).toUInt8, v.toUInt8]

def DnsQuestion.bytes (q : DnsQuestion) : List UInt8 := q.name.bytes ++ (wire16 q.qtype ++ wire16 q.qclass)

def DnsRecord.fields (r : DnsRecord) : List UInt8 :=
  wire16 r.type ++ (wire16 r.rclass ++ (wire32 r.ttl ++ wire16 (UInt16.ofNat r.rdata.length)))

def DnsRecord.addressData (r : DnsRecord) : UInt32 :=
  ((r.rdata.getD 0 0).toUInt32 <<< 24) ||| ((r.rdata.getD 1 0).toUInt32 <<< 16) |||
    ((r.rdata.getD 2 0).toUInt32 <<< 8) ||| (r.rdata.getD 3 0).toUInt32

def DnsRecord.bytes (r : DnsRecord) : List UInt8 := r.name.bytes ++ (r.fields ++ r.rdata)

structure DnsMessage where
  id : UInt16
  flags : UInt16
  questions : List DnsQuestion
  answers : List DnsRecord
  nscount : UInt16
  arcount : UInt16
  rest : List UInt8

namespace DnsMessage

def header (m : DnsMessage) : List UInt8 :=
  wire16 m.id ++ (wire16 m.flags ++ (wire16 (UInt16.ofNat m.questions.length) ++
    (wire16 (UInt16.ofNat m.answers.length) ++ (wire16 m.nscount ++ wire16 m.arcount))))

def bytes (m : DnsMessage) : List UInt8 :=
  m.header ++ (m.questions.flatMap DnsQuestion.bytes ++ (m.answers.flatMap DnsRecord.bytes ++ m.rest))

structure WellFormed (m : DnsMessage) : Prop where
  response : m.flags &&& dnsFlagQr ≠ 0
  ok : m.flags &&& dnsRcodeMask = 0
  questionCount : m.questions.length < 2 ^ 16
  answerCount : m.answers.length < 2 ^ 16
  questions : ∀ q ∈ m.questions, q.name.WellFormed
  answers : ∀ r ∈ m.answers, r.name.WellFormed ∧ r.rdata.length < 2 ^ 16

/-- The address of the first `A` record with 4 bytes of data. -/
def address (m : DnsMessage) : Option UInt32 :=
  (m.answers.find? fun r => r.type = dnsTypeA ∧ r.rdata.length = 4).map DnsRecord.addressData

/-- There are no answers, or no question has a name that ends with a pointer, and a type below 256 behind it. -/
def PlainQuestions (m : DnsMessage) : Prop :=
  m.answers = [] ∨ ∀ q ∈ m.questions, q.name.pointer ≠ none → (q.qtype >>> 8).toUInt8 ≠ 0

end DnsMessage

/-! ### Bytes in memory -/

section Bytes

variable {response : Mem} {pos : Nat} {bytes bytes' : List UInt8}

theorem lies_append : Lies response pos (bytes ++ bytes') ↔
    Lies response pos bytes ∧ Lies response (pos + bytes.length) bytes' := by
  induction bytes generalizing pos with
  | nil => exact (true_and _).symm.to_iff
  | cons b bytes ih =>
    rw [List.cons_append, Lies, Lies, ih, List.length_cons, and_assoc, Nat.add_assoc, Nat.add_comm 1]

theorem Lies.getD (h : Lies response pos bytes) {i : Nat} (hi : i < bytes.length) :
    response (pos + i) = bytes.getD i 0 := by
  induction bytes generalizing pos i with
  | nil => exact absurd hi (Nat.not_lt_zero i)
  | cons b bytes ih =>
    cases i with
    | zero => exact h.1
    | succ i =>
      rw [← Nat.add_assoc, Nat.add_right_comm, List.getD_cons_succ]
      exact ih h.2 (Nat.lt_of_succ_lt_succ hi)

def holding (bytes : List UInt8) : Mem := fun x => bytes.getD x 0

theorem lies_of_getD (h : ∀ i < bytes.length, response (pos + i) = bytes.getD i 0) : Lies response pos bytes := by
  induction bytes generalizing pos with
  | nil => trivial
  | cons b bytes ih =>
    refine ⟨h 0 (Nat.succ_pos _), ih fun i hi => ?_⟩
    rw [Nat.add_right_comm, Nat.add_assoc]
    exact h (i + 1) (Nat.succ_lt_succ hi)

theorem lies_holding (bytes : List UInt8) : Lies (holding bytes) 0 bytes :=
  lies_of_getD fun i _ => by rw [Nat.zero_add, holding]

end Bytes

/-! ### Skipping a name -/

section Names

variable {response : Mem} {len pos fuel : Nat} {name : DnsName}

def DnsName.stop (name : DnsName) : Nat :=
  (name.labels.flatMap labelBytes).length + if name.pointer = none then 0 else 2

theorem pointer_iff (b : UInt8) : b &&& 0xC0 = 0xC0 ↔ 192 ≤ b.toNat := by
  have hAll : ∀ n < 256, UInt8.ofNat n &&& 0xC0 = 0xC0 ↔ 192 ≤ n := by decide +kernel
  have hByte := hAll b.toNat b.toNat_lt
  rwa [UInt8.ofNat_toNat] at hByte

theorem label_byte {label : List UInt8} {rest : List UInt8} (hLabel : 0 < label.length ∧ label.length < 64)
    (hLies : Lies response pos (labelBytes label ++ rest)) :
    (response pos).toNat = label.length ∧ response pos ≠ 0 ∧ response pos &&& 0xC0 ≠ 0xC0 := by
  have hFirst : response pos = UInt8.ofNat label.length := hLies.1
  have hNat : (response pos).toNat = label.length := by
    rw [hFirst, UInt8.toNat_ofNat_of_lt' (by simp [UInt8.size]; omega)]
  refine ⟨hNat, ?_, ?_⟩
  · intro hZero
    rw [hZero] at hNat
    simp at hNat
    omega
  · rw [ne_eq, pointer_iff]
    omega

theorem skipLabels_label {label : List UInt8} {rest : List UInt8} (hLabel : 0 < label.length ∧ label.length < 64)
    (hLies : Lies response pos (labelBytes label ++ rest)) (hPos : pos < len) :
    skipLabels response len (fuel + 1) pos = skipLabels response len fuel (pos + (labelBytes label).length) := by
  obtain ⟨hNat, hSome, hPlain⟩ := label_byte hLabel hLies
  rw [skipLabels, if_pos ⟨hPos, hSome⟩, if_neg hPlain, hNat, labelBytes, List.length_cons]
  congr 1
  omega

theorem skipLabels_name (h : name.WellFormed) (hLies : Lies response pos name.bytes)
    (hIn : pos + name.bytes.length ≤ len) (hFuel : name.labels.length < fuel) :
    skipLabels response len fuel pos = (pos + name.stop, name.pointer.isSome) := by
  obtain ⟨labels, pointer⟩ := name
  induction labels generalizing pos fuel with
  | nil =>
    obtain ⟨fuel, rfl⟩ : ∃ m, fuel = m + 1 := ⟨fuel - 1, by omega⟩
    cases pointer with
    | none =>
      have hZero : response pos = 0 := hLies.1
      rw [skipLabels, if_neg fun hMore => hMore.2 hZero]
      rfl
    | some p =>
      have hPointer : p.1 &&& 0xC0 = 0xC0 := h.pointer p rfl
      have hFirst : response pos = p.1 := hLies.1
      have hSome : response pos ≠ 0 := by
        rintro hZero
        rw [← hFirst, hZero] at hPointer
        exact absurd hPointer (by decide)
      have hPos : pos < len := by
        have hTwo : (DnsName.bytes ⟨[], some p⟩).length = 2 := rfl
        omega
      rw [skipLabels, if_pos ⟨hPos, hSome⟩, if_pos (hFirst ▸ hPointer)]
      rfl
  | cons label labels ih =>
    obtain ⟨fuel, rfl⟩ : ∃ m, fuel = m + 1 := ⟨fuel - 1, by omega⟩
    obtain ⟨hLabel, hLabels⟩ := List.forall_mem_cons.mp h.labels
    have hBytes : DnsName.bytes ⟨label :: labels, pointer⟩ = labelBytes label ++ DnsName.bytes ⟨labels, pointer⟩ :=
      List.append_assoc _ _ _
    have hStop : DnsName.stop ⟨label :: labels, pointer⟩ =
        (labelBytes label).length + DnsName.stop ⟨labels, pointer⟩ := by
      rw [DnsName.stop, DnsName.stop, List.flatMap_cons, List.length_append, Nat.add_assoc]
    rw [hBytes] at hLies
    rw [hBytes, List.length_append, labelBytes, List.length_cons] at hIn
    rw [skipLabels_label hLabel hLies (by omega), ih ⟨hLabels, h.pointer⟩ (lies_append.mp hLies).2
      (by rw [labelBytes, List.length_cons]; omega) (Nat.lt_of_succ_lt_succ hFuel), hStop, Nat.add_assoc]

theorem DnsName.length_bytes (name : DnsName) : name.bytes.length = name.stop + if name.pointer = none then 1 else 0 := by
  obtain ⟨labels, pointer⟩ := name
  cases pointer <;> rw [bytes, List.length_append, stop] <;> rfl

theorem length_labels_le (labels : List (List UInt8)) : labels.length ≤ (labels.flatMap labelBytes).length := by
  induction labels with
  | nil => exact Nat.le_refl 0
  | cons label labels ih =>
    rw [List.flatMap_cons, List.length_append, labelBytes, List.length_cons, List.length_cons]
    omega

theorem DnsName.labels_lt (name : DnsName) : name.labels.length < name.bytes.length := by
  have hEnding : 0 < name.ending.length := by
    obtain ⟨labels, pointer⟩ := name
    cases pointer <;> exact Nat.succ_pos _
  have hLabels := length_labels_le name.labels
  rw [bytes, List.length_append]
  omega

theorem zero_behind (hLies : Lies response pos name.bytes) (hPointer : name.pointer = none) :
    response (pos + name.stop) = 0 := by
  obtain ⟨labels, pointer⟩ := name
  obtain rfl : pointer = none := hPointer
  exact (lies_append.mp hLies).2.1

end Names

/-! ### The answer -/

section Answers

variable {response : Mem} {len pos n : Nat} {r : DnsRecord}

theorem skipQuestions_step {q : DnsQuestion} (h : q.name.WellFormed)
    (hPlain : q.name.pointer ≠ none → (q.qtype >>> 8).toUInt8 ≠ 0) (hLies : Lies response pos q.bytes)
    (hIn : pos + q.bytes.length ≤ len) :
    skipQuestions response len (n + 1) pos = skipQuestions response len n (pos + q.bytes.length) := by
  obtain ⟨hName, hFields⟩ := lies_append.mp hLies
  have hLen : q.bytes.length = q.name.bytes.length + 4 := List.length_append
  have hLabels := q.name.labels_lt
  have hSkip := @skipLabels_name response len pos len q.name h hName (by omega) (by omega)
  rw [skipQuestions, hSkip]
  dsimp only
  rw [hLen, q.name.length_bytes]
  cases hPointer : q.name.pointer with
  | none =>
    rw [if_pos (zero_behind hName hPointer), if_pos rfl, Nat.add_assoc, Nat.add_assoc, Nat.add_assoc]
  | some p =>
    have hStop : q.name.bytes.length = q.name.stop := by
      rw [q.name.length_bytes, hPointer]
      rfl
    have hType : response (pos + q.name.stop) = (q.qtype >>> 8).toUInt8 := by
      rw [hStop] at hFields
      exact hFields.1
    have hSome : response (pos + q.name.stop) ≠ 0 := by
      rw [hType]
      exact hPlain (by rw [hPointer]; exact Option.some_ne_none p)
    rw [if_neg hSome, if_neg (Option.some_ne_none p), Nat.add_zero, Nat.add_assoc]

theorem skipQuestions_all {questions : List DnsQuestion} (h : ∀ q ∈ questions, q.name.WellFormed)
    (hPlain : ∀ q ∈ questions, q.name.pointer ≠ none → (q.qtype >>> 8).toUInt8 ≠ 0)
    (hLies : Lies response pos (questions.flatMap DnsQuestion.bytes))
    (hIn : pos + (questions.flatMap DnsQuestion.bytes).length ≤ len) :
    skipQuestions response len questions.length pos = pos + (questions.flatMap DnsQuestion.bytes).length := by
  induction questions generalizing pos with
  | nil => rfl
  | cons q questions ih =>
    obtain ⟨hq, h⟩ := List.forall_mem_cons.mp h
    obtain ⟨hqPlain, hPlain⟩ := List.forall_mem_cons.mp hPlain
    rw [List.flatMap_cons, List.length_append] at hIn
    rw [List.flatMap_cons] at hLies
    obtain ⟨hFirst, hRest⟩ := lies_append.mp hLies
    rw [List.length_cons, skipQuestions_step hq hqPlain hFirst (by omega), ih h hPlain hRest (by omega), List.flatMap_cons,
      List.length_append, Nat.add_assoc]

theorem toNat_big (high low : UInt8) :
    ((high.toUInt16 <<< 8) ||| low.toUInt16).toNat = 256 * high.toNat + low.toNat := by
  have hHigh := high.toNat_lt
  have hShift : (high.toUInt16 <<< 8).toNat = 2 ^ 8 * high.toNat := by
    rw [UInt16.toNat_shiftLeft, UInt8.toNat_toUInt16, Nat.shiftLeft_eq, Nat.mul_comm]
    exact Nat.mod_eq_of_lt (show 2 ^ 8 * high.toNat < 2 ^ 16 by omega)
  rw [UInt16.toNat_or, hShift, UInt8.toNat_toUInt16, ← Nat.two_pow_add_eq_or_of_lt low.toNat_lt]

theorem load16Big_wire {v : UInt16} (h : Lies response pos (wire16 v)) : load16Big response pos = v := by
  obtain ⟨hHigh, hLow, -⟩ := h
  have hv := v.toNat_lt
  have hDiv : v.toNat / 256 < 2 ^ 8 := by omega
  apply UInt16.toNat_inj.mp
  rw [load16Big, hHigh, hLow, toNat_big, UInt16.toNat_toUInt8, UInt16.toNat_toUInt8, toNat_shift8, Nat.mod_eq_of_lt hDiv]
  omega

theorem ntohs_load16 (response : Mem) (pos : Nat) : ntohs (load16 response pos) = load16Big response pos := by
  have hHigh := (response pos).toNat_lt
  have hLow := (response (pos + 1)).toNat_lt
  have hLoad : (load16 response pos).toNat = (response pos).toNat + 256 * (response (pos + 1)).toNat := by
    rw [load16, load, load, load, Nat.mul_zero, Nat.add_zero, UInt16.toNat_ofNat_of_lt' (by simp [UInt16.size]; omega)]
  apply UInt16.toNat_inj.mp
  rw [load16Big, toNat_big, ntohs, toNat_htons, hLoad]
  omega

theorem pastName (h : r.name.WellFormed) (hLies : Lies response pos r.name.bytes)
    (hIn : pos + r.name.bytes.length ≤ len) :
    (let (pos, jumped) := skipLabels response len len pos
      if !jumped && response pos = 0 then pos + 1 else pos) = pos + r.name.bytes.length := by
  have hLabels := r.name.labels_lt
  rw [@skipLabels_name response len pos len r.name h hLies hIn (by omega)]
  dsimp only
  rw [r.name.length_bytes]
  cases hPointer : r.name.pointer with
  | none =>
    rw [zero_behind hLies hPointer]
    rfl
  | some p => rfl

theorem DnsRecord.length_bytes (r : DnsRecord) : r.bytes.length = r.name.bytes.length + 10 + r.rdata.length := by
  rw [bytes, List.length_append, List.length_append, ← Nat.add_assoc]
  rfl

theorem findAnswer_step (h : r.name.WellFormed) (hData : r.rdata.length < 2 ^ 16)
    (hLies : Lies response pos r.bytes) (hIn : pos + r.bytes.length ≤ len) :
    findAnswer response len (n + 1) pos =
      if r.type = dnsTypeA ∧ r.rdata.length = 4 then some (pos + r.name.bytes.length + 10)
      else findAnswer response len n (pos + r.bytes.length) := by
  obtain ⟨hName, hFields⟩ := lies_append.mp hLies
  obtain ⟨hType, hRest⟩ := lies_append.mp (lies_append.mp hFields).1
  obtain ⟨-, hRest⟩ := lies_append.mp hRest
  obtain ⟨-, hLength⟩ := lies_append.mp hRest
  rw [r.length_bytes] at hIn ⊢
  have hLabels := r.name.labels_lt
  have hPast := @pastName response len pos r h hName (by omega)
  rw [findAnswer, if_pos (by omega)]
  dsimp only at hPast ⊢
  rw [hPast, if_neg (by omega), load16Big_wire hType]
  have hSize : load16Big response (pos + r.name.bytes.length + 8) = UInt16.ofNat r.rdata.length := load16Big_wire hLength
  have hFour : UInt16.ofNat r.rdata.length = 4 ↔ r.rdata.length = 4 := by
    rw [← UInt16.toNat_inj, UInt16.toNat_ofNat_of_lt' hData]
    rfl
  rw [hSize, UInt16.toNat_ofNat_of_lt' hData, ← Nat.add_assoc, ← Nat.add_assoc]
  exact if_congr (and_congr_right fun _ => hFour) rfl rfl

theorem findAnswer_all {answers : List DnsRecord}
    (h : ∀ r ∈ answers, r.name.WellFormed ∧ r.rdata.length < 2 ^ 16)
    (hLies : Lies response pos (answers.flatMap DnsRecord.bytes))
    (hIn : pos + (answers.flatMap DnsRecord.bytes).length ≤ len) :
    (findAnswer response len answers.length pos).map (fun pos =>
        ((response pos).toUInt32 <<< 24) ||| ((response (pos + 1)).toUInt32 <<< 16) |||
          ((response (pos + 2)).toUInt32 <<< 8) ||| (response (pos + 3)).toUInt32) =
      (answers.find? fun r => r.type = dnsTypeA ∧ r.rdata.length = 4).map DnsRecord.addressData := by
  induction answers generalizing pos with
  | nil => rfl
  | cons r answers ih =>
    obtain ⟨⟨hName, hData⟩, h⟩ := List.forall_mem_cons.mp h
    rw [List.flatMap_cons, List.length_append] at hIn
    rw [List.flatMap_cons] at hLies
    obtain ⟨hFirst, hRest⟩ := lies_append.mp hLies
    rw [List.length_cons, findAnswer_step hName hData hFirst (by omega)]
    by_cases hA : r.type = dnsTypeA ∧ r.rdata.length = 4
    · obtain ⟨-, hBytes⟩ := lies_append.mp (lies_append.mp hFirst).2
      have hByte : ∀ i < 4, response (pos + r.name.bytes.length + 10 + i) = r.rdata.getD i 0 := fun i hi =>
        hBytes.getD (hA.2.symm ▸ hi)
      have hFound : (r :: answers).find? (fun r => r.type = dnsTypeA ∧ r.rdata.length = 4) = some r :=
        List.find?_cons_of_pos (decide_eq_true hA)
      rw [if_pos hA, hFound, Option.map_some, Option.map_some, DnsRecord.addressData, ← hByte 0 (by decide), ← hByte 1 (by decide), ← hByte 2 (by decide), ← hByte 3 (by decide), Nat.add_zero]
    · have hNext : (r :: answers).find? (fun r => r.type = dnsTypeA ∧ r.rdata.length = 4) =
          answers.find? fun r => r.type = dnsTypeA ∧ r.rdata.length = 4 :=
        List.find?_cons_of_neg (by rwa [decide_eq_true_eq])
      rw [if_neg hA, hNext]
      exact ih h hRest (by omega)

end Answers

/-! ### Responses -/

section Responses

variable {response : Mem} {m : DnsMessage}

theorem header_fields (hLies : Lies response 0 m.header) :
    ntohs (load16 response 2) = m.flags ∧ ntohs (load16 response 4) = UInt16.ofNat m.questions.length ∧
      ntohs (load16 response 6) = UInt16.ofNat m.answers.length := by
  obtain ⟨-, hFields⟩ := lies_append.mp hLies
  obtain ⟨hFlags, hFields⟩ := lies_append.mp hFields
  obtain ⟨hQuestions, hFields⟩ := lies_append.mp hFields
  obtain ⟨hAnswers, -⟩ := lies_append.mp hFields
  refine ⟨?_, ?_, ?_⟩
  · exact (ntohs_load16 response 2).trans (load16Big_wire hFlags)
  · exact (ntohs_load16 response 4).trans (load16Big_wire hQuestions)
  · exact (ntohs_load16 response 6).trans (load16Big_wire hAnswers)

/-- Every response is read as its sender meant it, unless it has answers and a question's name ends with a pointer and a
zero byte follows: the loop over the questions then takes that byte for the end of the name and is one byte ahead from
there on. -/
theorem dnsParseResponse_message (h : m.WellFormed) (hPlain : m.PlainQuestions) (hLies : Lies response 0 m.bytes) :
    dnsParseResponse response m.bytes.length = m.address := by
  obtain ⟨hHeader, hRest⟩ := lies_append.mp hLies
  obtain ⟨hQuestions, hRest⟩ := lies_append.mp hRest
  obtain ⟨hAnswers, -⟩ := lies_append.mp hRest
  obtain ⟨hFlags, hQuestionField, hAnswerField⟩ := header_fields hHeader
  have hLength : m.bytes.length = dnsHeaderSize + (m.questions.flatMap DnsQuestion.bytes).length +
      ((m.answers.flatMap DnsRecord.bytes).length + m.rest.length) := by
    rw [DnsMessage.bytes, List.length_append, List.length_append, List.length_append, ← Nat.add_assoc]
    rfl
  have hQuestionCount : (UInt16.ofNat m.questions.length).toNat = m.questions.length :=
    UInt16.toNat_ofNat_of_lt' h.questionCount
  have hAnswerCount : (UInt16.ofNat m.answers.length).toNat = m.answers.length := UInt16.toNat_ofNat_of_lt' h.answerCount
  rw [dnsParseResponse, dnsAnswerData, if_neg (by omega)]
  dsimp only
  rw [hFlags, if_neg h.response, if_neg (not_not.mpr h.ok), hQuestionField, hAnswerField, hAnswerCount, hQuestionCount]
  by_cases hNone : UInt16.ofNat m.answers.length = 0
  · have hNoAnswers : m.answers = [] := by
      rw [hNone] at hAnswerCount
      exact List.eq_nil_of_length_eq_zero hAnswerCount.symm
    rw [if_pos hNone, DnsMessage.address, hNoAnswers]
    rfl
  · have hSome : m.answers ≠ [] := fun hNil => hNone (by rw [hNil]; rfl)
    have hSkip := @skipQuestions_all response m.bytes.length dnsHeaderSize m.questions h.questions
      (hPlain.resolve_left hSome) hQuestions (by omega)
    rw [if_neg hNone, hSkip]
    exact findAnswer_all h.answers hAnswers (by omega)

def aliasedResponse : DnsMessage where
  id := 1
  flags := 0x8180
  questions := [{ name := ⟨[[97]], none⟩, qtype := 1, qclass := 1 }]
  answers := [{ name := ⟨[], some (0xC0, 0x0C)⟩, type := 5, rclass := 1, ttl := 60, rdata := [1, 98, 0xC0, 0x0C] },
    { name := ⟨[[98]], some (0xC0, 0x0C)⟩, type := 1, rclass := 1, ttl := 60, rdata := [10, 0, 2, 15] }]
  nscount := 0
  arcount := 0
  rest := []

theorem dnsParseResponse_aliased :
    dnsParseResponse (holding aliasedResponse.bytes) aliasedResponse.bytes.length = some 0x0A00020F :=
  dnsParseResponse_message
    ⟨by decide, by decide, by decide, by decide, List.forall_mem_singleton.mpr ⟨by decide, by simp⟩,
      List.forall_mem_cons.mpr ⟨⟨⟨by simp, by rintro _ ⟨⟩; decide⟩, by decide⟩,
        List.forall_mem_singleton.mpr ⟨⟨by decide, by rintro _ ⟨⟩; decide⟩, by decide⟩⟩⟩
    (Or.inr (List.forall_mem_singleton.mpr fun h => absurd rfl h)) (lies_holding _)

def twoQuestions : DnsMessage where
  id := 1
  flags := 0x8180
  questions := [{ name := ⟨[[97]], none⟩, qtype := 1, qclass := 1 },
    { name := ⟨[], some (0xC0, 0x0C)⟩, qtype := 28, qclass := 1 }]
  answers := [{ name := ⟨[], some (0xC0, 0x0C)⟩, type := 1, rclass := 1, ttl := 60, rdata := [1, 2, 3, 4] }]
  nscount := 0
  arcount := 0
  rest := []

theorem dnsParseResponse_misses : twoQuestions.WellFormed ∧ Lies (holding twoQuestions.bytes) 0 twoQuestions.bytes ∧
    twoQuestions.address = some 0x01020304 ∧
    dnsParseResponse (holding twoQuestions.bytes) twoQuestions.bytes.length = none :=
  ⟨⟨by decide, by decide, by decide, by decide,
    List.forall_mem_cons.mpr ⟨⟨by decide, by simp⟩, List.forall_mem_singleton.mpr ⟨by simp, by rintro _ ⟨⟩; decide⟩⟩,
    List.forall_mem_singleton.mpr ⟨⟨by simp, by rintro _ ⟨⟩; decide⟩, by decide⟩⟩,
    lies_holding _, by decide, by decide⟩

end Responses

end UnixOS.Net
