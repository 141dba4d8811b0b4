import UnixOS.Lib.DoublyLinked
import UnixOS.Lib.Tiling
import UnixOS.X64.Heap

/-! # The blocks of the x86-64 heap

`Shape base hd bs` says that header contents `hd` describe the blocks `bs`: end to end over the heap, and linked in
this order. Splitting and merging are each one change of `bs`, proved on contents; the memory follows.
-/

namespace UnixOS.X64Heap

open ByteMemory Records DoublyLinked Tiling

structure Block where
  addr : Nat
  size : Nat
  used : Bool
deriving DecidableEq, Repr

def Block.mark (b : Block) : Nat := if b.used then 0 else 1

def addrs (bs : List Block) : List Nat := bs.map Block.addr

@[simp] theorem addrs_append (xs ys : List Block) : addrs (xs ++ ys) = addrs xs ++ addrs ys := List.map_append

@[simp] theorem addrs_cons (b : Block) (bs : List Block) : addrs (b :: bs) = b.addr :: addrs bs := rfl

@[simp] theorem addrs_nil : addrs [] = [] := rfl

theorem mem_addrs {b : Block} {bs : List Block} (hb : b ∈ bs) : b.addr ∈ addrs bs := List.mem_map_of_mem hb

structure Header (hd : BlockField → Nat → Nat) (b : Block) : Prop where
  magic : hd .magic b.addr = blockMagic
  size : hd .size b.addr = b.size
  free : hd .free b.addr = b.mark

structure Shape (base : Nat) (hd : BlockField → Nat → Nat) (bs : List Block) : Prop where
  start_pos : 0 < base
  end_lt : base + heapSize < 2 ^ 64
  tiles : Tiles Block.addr Block.size base bs (base + heapSize)
  room : ∀ b ∈ bs, headerSize ≤ b.size
  header : ∀ b ∈ bs, Header hd b
  links : Seg (hd .next) (hd .prev) 0 (addrs bs) 0

section Shapes

variable {base : Nat} {hd hd' : BlockField → Nat → Nat} {bs B₁ B₂ : List Block} {b n : Block}

theorem spaced_of_tiles {a e : Nat} (hTiles : Tiles Block.addr Block.size a bs e)
    (hRoom : ∀ b ∈ bs, headerSize ≤ b.size) : block.Spaced (addrs bs) := by
  intro x hx y hy
  obtain ⟨b, hb, rfl⟩ := List.mem_map.mp hx
  obtain ⟨c, hc, rfl⟩ := List.mem_map.mp hy
  have hbRoom := hRoom b hb
  have hcRoom := hRoom c hc
  obtain rfl | hLow | hHigh := hTiles.eq_or_disjoint hb hc
  · exact .inl rfl
  · exact .inr (.inl (Nat.le_trans (Nat.add_le_add_left hbRoom b.addr) hLow))
  · exact .inr (.inr (Nat.le_trans (Nat.add_le_add_left hcRoom c.addr) hHigh))

theorem Shape.spaced (s : Shape base hd bs) : block.Spaced (addrs bs) := spaced_of_tiles s.tiles s.room

theorem nodup_of_tiles {a e : Nat} (hTiles : Tiles Block.addr Block.size a bs e) : (addrs bs).Nodup := by
  induction bs generalizing a with
  | nil => exact List.nodup_nil
  | cons b bs ih =>
    obtain ⟨hAddr, hPos, hRest⟩ := hTiles
    refine List.nodup_cons.mpr ⟨?_, ih hRest⟩
    intro hMem
    obtain ⟨c, hc, hEq⟩ := List.mem_map.mp hMem
    have hBounds := hRest.bounds hc
    omega

theorem Shape.nodup (s : Shape base hd bs) : (addrs bs).Nodup := nodup_of_tiles s.tiles

theorem Shape.bounds (s : Shape base hd bs) (hb : b ∈ bs) :
    base ≤ b.addr ∧ b.size ≤ heapSize ∧ b.addr + b.size ≤ base + heapSize := by
  have hBounds := s.tiles.bounds hb
  omega

theorem Header.congr (hHeader : Header hd b) (hSame : ∀ g, hd' g b.addr = hd g b.addr) : Header hd' b :=
  ⟨(hSame .magic).trans hHeader.magic, (hSame .size).trans hHeader.size, (hSame .free).trans hHeader.free⟩

theorem Shape.congr (s : Shape base hd bs) (hSame : ∀ g, ∀ a ∈ addrs bs, hd' g a = hd g a) : Shape base hd' bs where
  start_pos := s.start_pos
  end_lt := s.end_lt
  tiles := s.tiles
  room := s.room
  header b hb := (s.header b hb).congr fun g => hSame g b.addr (mem_addrs hb)
  links := s.links.congr (hSame .next) (hSame .prev)

theorem mem_split {c : Block} (hc : c ∈ B₁ ++ b :: B₂) : c = b ∨ c ∈ B₁ ∨ c ∈ B₂ := by
  simpa [or_left_comm] using hc

theorem mem_of_others {c : Block} (hc : c ∈ B₁ ∨ c ∈ B₂) : c ∈ B₁ ++ b :: B₂ := by
  obtain hc | hc := hc
  · exact List.mem_append_left _ hc
  · exact List.mem_append_right _ (List.mem_cons_of_mem b hc)

theorem Shape.around (s : Shape base hd (B₁ ++ b :: B₂)) :
    hd .prev b.addr = (addrs B₁).getLastD 0 ∧ hd .next b.addr = (addrs B₂).headD 0 := by
  have hLinks := s.links
  rw [addrs_append, addrs_cons] at hLinks
  exact hLinks.at_split

theorem Shape.addr_pos (s : Shape base hd bs) (hb : b ∈ bs) : 0 < b.addr :=
  Nat.lt_of_lt_of_le s.start_pos (s.tiles.bounds hb).1

theorem Shape.left_away (s : Shape base hd (B₁ ++ b :: B₂)) {z : Nat} (hz : z ∈ addrs B₁ ++ [b.addr]) :
    z ≠ (addrs B₂).headD 0 := by
  have hOld : addrs (B₁ ++ b :: B₂) = (addrs B₁ ++ [b.addr]) ++ addrs B₂ := by simp
  obtain hZero | hMem := headD_eq_or_mem (addrs B₂) 0
  · rw [hZero]
    have hAll : z ∈ addrs (B₁ ++ b :: B₂) := by
      rw [hOld]
      exact List.mem_append_left _ hz
    obtain ⟨c, hc, rfl⟩ := List.mem_map.mp hAll
    exact Nat.pos_iff_ne_zero.mp (s.addr_pos hc)
  · have hNodup := s.nodup
    rw [hOld] at hNodup
    exact (List.nodup_append.mp hNodup).2.2 z hz _ hMem

section Mark

def Block.marked (b : Block) (used : Bool) : Block := { b with used }

@[simp] theorem marked_addr (used : Bool) : (b.marked used).addr = b.addr := rfl
@[simp] theorem marked_size (used : Bool) : (b.marked used).size = b.size := rfl
@[simp] theorem marked_used (used : Bool) : (b.marked used).used = used := rfl

theorem Shape.mark (s : Shape base hd (B₁ ++ b :: B₂)) (used : Bool) :
    Shape base (put hd .free b.addr (b.marked used).mark) (B₁ ++ b.marked used :: B₂) := by
  have hAddrs : addrs (B₁ ++ b.marked used :: B₂) = addrs (B₁ ++ b :: B₂) := by simp
  refine ⟨s.start_pos, s.end_lt, ?_, ?_, ?_, ?_⟩
  · obtain ⟨m, hLow, hHigh⟩ := Tiles.append_iff.mp s.tiles
    exact Tiles.append_iff.mpr ⟨m, hLow, hHigh⟩
  · intro c hc
    obtain rfl | hc := mem_split hc
    · exact s.room b (by simp)
    · exact s.room c (mem_of_others hc)
  · intro c hc
    obtain rfl | hc := mem_split hc
    · have hHeader := s.header b (by simp)
      exact ⟨hHeader.magic, hHeader.size, Function.update_self ..⟩
    · have hne := s.tiles.addr_ne hc
      exact (s.header c (mem_of_others hc)).congr fun g => put_away hne
  · rw [hAddrs]
    exact s.links

end Mark

section Split

variable {t : Nat}

def Block.front (b : Block) (t : Nat) : Block := { b with size := t }

def Block.back (b : Block) (t : Nat) : Block := ⟨b.addr + t, b.size - t, false⟩

@[simp] theorem front_addr : (b.front t).addr = b.addr := rfl
@[simp] theorem front_mark : (b.front t).mark = b.mark := rfl
@[simp] theorem back_addr : (b.back t).addr = b.addr + t := rfl

theorem tiles_split {a e : Nat} (hTiles : Tiles Block.addr Block.size a (B₁ ++ b :: B₂) e) (hPos : 0 < t)
    (hlt : t < b.size) : Tiles Block.addr Block.size a (B₁ ++ b.front t :: b.back t :: B₂) e := by
  obtain ⟨m, hLow, hAddr, -, hHigh⟩ := Tiles.append_iff.mp hTiles
  refine Tiles.append_iff.mpr ⟨m, hLow, hAddr, hPos, congrArg (· + t) hAddr, Nat.sub_pos_of_lt hlt, ?_⟩
  have hEnd : m + t + (b.size - t) = m + b.size := by omega
  change Tiles Block.addr Block.size (m + t + (b.size - t)) B₂ e
  rwa [hEnd]

def splitHeaders (hd : BlockField → Nat → Nat) (b : Block) (head t : Nat) : BlockField → Nat → Nat :=
  let hd := put hd .magic (b.addr + t) blockMagic
  let hd := put hd .size (b.addr + t) (b.size - t)
  let hd := put hd .free (b.addr + t) 1
  let hd := put hd .next (b.addr + t) head
  let hd := put hd .prev (b.addr + t) b.addr
  let hd := if head ≠ 0 then put hd .prev head (b.addr + t) else hd
  let hd := put hd .size b.addr t
  put hd .next b.addr (b.addr + t)

theorem splitHeaders_away {head a : Nat} {g : BlockField} (hb : a ≠ b.addr) (hn : a ≠ b.addr + t)
    (hg : g ≠ .prev ∨ a ≠ head) : splitHeaders hd b head t g a = hd g a := by
  unfold splitHeaders
  rw [put_away hb, put_away hb]
  have hInner : put (put (put (put (put hd .magic (b.addr + t) blockMagic) .size (b.addr + t) (b.size - t)) .free
      (b.addr + t) 1) .next (b.addr + t) head) .prev (b.addr + t) b.addr g a = hd g a := by
    rw [put_away hn, put_away hn, put_away hn, put_away hn, put_away hn]
  split
  · obtain hg | hHead := hg
    · rw [put_ne (Ne.symm hg), hInner]
    · rw [put_away hHead, hInner]
  · exact hInner

theorem splitHeaders_front {head : Nat} (hPos : 0 < t) (hHead : b.addr ≠ head) (hHeader : Header hd b) :
    Header (splitHeaders hd b head t) (b.front t) ∧ splitHeaders hd b head t .next b.addr = b.addr + t ∧
      splitHeaders hd b head t .prev b.addr = hd .prev b.addr := by
  have hne : b.addr ≠ b.addr + t := by omega
  unfold splitHeaders
  refine ⟨⟨?_, ?_, ?_⟩, ?_, ?_⟩
  · split <;> simpa [put, Function.update_of_ne hne] using hHeader.magic
  · split <;> simp [put, Block.front]
  · split <;> simpa [put, Function.update_of_ne hne] using hHeader.free
  · split <;> simp [put]
  · split <;> simp [put, Function.update_of_ne hne, Function.update_of_ne hHead]

theorem splitHeaders_back {head : Nat} (hPos : 0 < t) (hHead : b.addr + t ≠ head) :
    Header (splitHeaders hd b head t) (b.back t) ∧ splitHeaders hd b head t .next (b.addr + t) = head ∧
      splitHeaders hd b head t .prev (b.addr + t) = b.addr := by
  have hne : b.addr + t ≠ b.addr := by omega
  unfold splitHeaders
  refine ⟨⟨?_, ?_, ?_⟩, ?_, ?_⟩
  · split <;> simp [put]
  · split <;> simp [put, Block.back, Function.update_of_ne hne]
  · split <;> simp [put, Block.back, Block.mark]
  · split <;> simp [put, Function.update_of_ne hne]
  · split <;> simp [put, Function.update_of_ne hHead]

theorem splitHeaders_prev_head {head : Nat} (hSome : head ≠ 0) (hb : head ≠ b.addr) :
    splitHeaders hd b head t .prev head = b.addr + t := by
  unfold splitHeaders
  rw [put_away hb, put_away hb, if_pos hSome, put_same, Function.update_self]

theorem Shape.head_away (s : Shape base hd (B₁ ++ b :: B₂)) {x : Nat} (hx : x < b.addr + b.size) (hPos : 0 < x) :
    x ≠ (addrs B₂).headD 0 := by
  cases B₂ with
  | nil => exact Nat.pos_iff_ne_zero.mp hPos
  | cons c B₂ =>
    obtain ⟨hNone, -⟩ | ⟨d, B₃, hEq, hAddr, -⟩ := s.tiles.next_block
    · cases hNone
    · obtain ⟨rfl, rfl⟩ := List.cons.inj hEq
      simp only [addrs_cons, List.headD_cons]
      omega

theorem Shape.split (s : Shape base hd (B₁ ++ b :: B₂)) (hFit : headerSize ≤ t) (hBig : t + headerSize ≤ b.size) :
    Shape base (splitHeaders hd b ((addrs B₂).headD 0) t) (B₁ ++ b.front t :: b.back t :: B₂) := by
  have hHeader : 0 < headerSize := by decide
  have hPos : 0 < t := by omega
  have hStart := s.start_pos
  have hBounds := s.bounds (b := b) (by simp)
  have hHead := s.head_away (x := b.addr) (by omega) (by omega)
  have hHead' := s.head_away (x := b.addr + t) (by omega) (by omega)
  have hBack : Header (splitHeaders hd b ((addrs B₂).headD 0) t) (b.back t) ∧ _ := splitHeaders_back hPos hHead'
  have hFront := splitHeaders_front hPos hHead (s.header b (by simp))
  have hAway : ∀ c, c ∈ B₁ ∨ c ∈ B₂ → c.addr ≠ b.addr ∧ c.addr ≠ b.addr + t := by
    intro c hc
    have hcPos := (s.tiles.bounds (mem_of_others hc)).2.1
    refine ⟨s.tiles.addr_ne hc, ?_⟩
    obtain hLow | hHigh := s.tiles.around hc <;> omega
  refine ⟨s.start_pos, s.end_lt, tiles_split s.tiles hPos (by omega), ?_, ?_, ?_⟩
  · intro c hc
    simp only [List.mem_append, List.mem_cons] at hc
    obtain hc | rfl | rfl | hc := hc
    · exact s.room c (mem_of_others (.inl hc))
    · exact hFit
    · exact Nat.le_sub_of_add_le' hBig
    · exact s.room c (mem_of_others (.inr hc))
  · intro c hc
    simp only [List.mem_append, List.mem_cons] at hc
    have hOther : c ∈ B₁ ∨ c ∈ B₂ → Header (splitHeaders hd b ((addrs B₂).headD 0) t) c := by
      intro hc
      obtain ⟨hb, hn⟩ := hAway c hc
      have hOld := s.header c (mem_of_others hc)
      refine ⟨?_, ?_, ?_⟩
      · rw [splitHeaders_away hb hn (.inl (by decide)), hOld.magic]
      · rw [splitHeaders_away hb hn (.inl (by decide)), hOld.size]
      · rw [splitHeaders_away hb hn (.inl (by decide)), hOld.free]
    obtain hc | rfl | rfl | hc := hc
    · exact hOther (.inl hc)
    · exact hFront.1
    · exact hBack.1
    · exact hOther (.inr hc)
  · have hLinks := s.links
    have hNodup := s.nodup
    have hOld : addrs (B₁ ++ b :: B₂) = (addrs B₁ ++ [b.addr]) ++ addrs B₂ := by simp
    have hNew : addrs (B₁ ++ b.front t :: b.back t :: B₂) = (addrs B₁ ++ [b.addr]) ++ (b.addr + t) :: addrs B₂ := by
      simp [Block.front, Block.back]
    rw [hOld] at hLinks hNodup
    rw [hNew]
    have hLast : (addrs B₁ ++ [b.addr]).getLastD 0 = b.addr := getLastD_append_cons (addrs B₁) [] b.addr 0
    refine hLinks.insert hNodup ?_ ?_ (by rw [hLast, hBack.2.2]) hBack.2.1 ?_ ?_
    · rw [hLast]
      intro z hz
      obtain hz | hz := List.mem_append.mp hz
      · obtain ⟨c, hc, rfl⟩ := List.mem_map.mp hz
        obtain ⟨hb, hn⟩ := hAway c (.inl hc)
        rw [splitHeaders_away hb hn (.inl (by decide)), Function.update_of_ne hb]
      · obtain rfl := List.mem_singleton.mp hz
        rw [hFront.2.1, Function.update_self]
    · intro z hz
      have hzHead := s.left_away hz
      obtain hz | hz := List.mem_append.mp hz
      · obtain ⟨c, hc, rfl⟩ := List.mem_map.mp hz
        obtain ⟨hb, hn⟩ := hAway c (.inl hc)
        exact splitHeaders_away hb hn (.inr hzHead)
      · obtain rfl := List.mem_singleton.mp hz
        exact hFront.2.2
    · intro z hz
      obtain ⟨c, hc, rfl⟩ := List.mem_map.mp hz
      obtain ⟨hb, hn⟩ := hAway c (.inr hc)
      exact splitHeaders_away hb hn (.inl (by decide))
    · intro z hz
      obtain ⟨c, hc, rfl⟩ := List.mem_map.mp hz
      obtain ⟨hb, hn⟩ := hAway c (.inr hc)
      by_cases hIsHead : c.addr = (addrs B₂).headD 0
      · have hSome := s.addr_pos (mem_of_others (.inr hc))
        rw [← hIsHead, Function.update_self]
        exact splitHeaders_prev_head (Nat.pos_iff_ne_zero.mp hSome) hb
      · rw [splitHeaders_away hb hn (.inr hIsHead), Function.update_of_ne hIsHead]

end Split

section Merge

def Block.joined (b n : Block) : Block := { b with size := b.size + n.size }

@[simp] theorem joined_addr (b n : Block) : (b.joined n).addr = b.addr := rfl
@[simp] theorem joined_mark (b n : Block) : (b.joined n).mark = b.mark := rfl

theorem tiles_merge {a e : Nat} (hTiles : Tiles Block.addr Block.size a (B₁ ++ b :: n :: B₂) e) :
    Tiles Block.addr Block.size a (B₁ ++ b.joined n :: B₂) e := by
  obtain ⟨m, hLow, hAddr, hPos, -, -, hHigh⟩ := Tiles.append_iff.mp hTiles
  refine Tiles.append_iff.mpr ⟨m, hLow, hAddr, Nat.add_pos_left hPos n.size, ?_⟩
  change Tiles Block.addr Block.size (m + (b.size + n.size)) B₂ e
  rwa [← Nat.add_assoc]

/-- The header contents after the block at `a` has taken in the one behind it. -/
def mergeHeaders (hd : BlockField → Nat → Nat) (a size head : Nat) : BlockField → Nat → Nat :=
  let hd := put hd .size a size
  let hd := put hd .next a head
  if head ≠ 0 then put hd .prev head a else hd

theorem mergeHeaders_away {a size head x : Nat} {g : BlockField} (ha : x ≠ a) (hg : g ≠ .prev ∨ x ≠ head) :
    mergeHeaders hd a size head g x = hd g x := by
  unfold mergeHeaders
  split
  · obtain hg | hHead := hg
    · rw [put_ne (Ne.symm hg), put_away ha, put_away ha]
    · rw [put_away hHead, put_away ha, put_away ha]
  · rw [put_away ha, put_away ha]

theorem mergeHeaders_joined {head : Nat} (hHead : b.addr ≠ head) (hHeader : Header hd b) :
    Header (mergeHeaders hd b.addr (b.size + n.size) head) (b.joined n) ∧
      mergeHeaders hd b.addr (b.size + n.size) head .next b.addr = head ∧
      mergeHeaders hd b.addr (b.size + n.size) head .prev b.addr = hd .prev b.addr := by
  unfold mergeHeaders
  refine ⟨⟨?_, ?_, ?_⟩, ?_, ?_⟩
  · split <;> simpa [put] using hHeader.magic
  · split <;> simp [put, Block.joined]
  · split <;> simpa [put] using hHeader.free
  · split <;> simp [put]
  · split <;> simp [put, Function.update_of_ne hHead]

theorem mergeHeaders_prev_head {a size head : Nat} (hSome : head ≠ 0) :
    mergeHeaders hd a size head .prev head = a := by
  unfold mergeHeaders
  rw [if_pos hSome, put_same, Function.update_self]

theorem Shape.merge (s : Shape base hd (B₁ ++ b :: n :: B₂)) :
    Shape base (mergeHeaders hd b.addr (b.size + n.size) ((addrs B₂).headD 0)) (B₁ ++ b.joined n :: B₂) := by
  have hOld : B₁ ++ b :: n :: B₂ = (B₁ ++ [b]) ++ n :: B₂ := by simp
  have sN : Shape base hd ((B₁ ++ [b]) ++ n :: B₂) := hOld ▸ s
  have hLeft : ∀ z ∈ addrs B₁ ++ [b.addr], z ≠ (addrs B₂).headD 0 := by
    intro z hz
    apply sN.left_away
    rw [addrs_append]
    exact List.mem_append_left _ hz
  have hJoined := mergeHeaders_joined (n := n) (hLeft b.addr (by simp)) (s.header b (by simp))
  have hAway : ∀ c, c ∈ B₁ ∨ c ∈ B₂ → c.addr ≠ b.addr := by
    intro c hc
    exact s.tiles.addr_ne (hc.imp_right (List.mem_cons_of_mem n))
  have hOthers : ∀ c, c ∈ B₁ ∨ c ∈ B₂ → c ∈ B₁ ++ b :: n :: B₂ :=
    fun c hc => mem_of_others (hc.imp_right (List.mem_cons_of_mem n))
  refine ⟨s.start_pos, s.end_lt, tiles_merge s.tiles, ?_, ?_, ?_⟩
  · intro c hc
    obtain rfl | hc := mem_split hc
    · exact Nat.le_trans (s.room b (by simp)) (Nat.le_add_right b.size n.size)
    · exact s.room c (hOthers c hc)
  · intro c hc
    obtain rfl | hc := mem_split hc
    · exact hJoined.1
    · have hb := hAway c hc
      have hHeader := s.header c (hOthers c hc)
      refine ⟨?_, ?_, ?_⟩
      · rw [mergeHeaders_away hb (.inl (by decide)), hHeader.magic]
      · rw [mergeHeaders_away hb (.inl (by decide)), hHeader.size]
      · rw [mergeHeaders_away hb (.inl (by decide)), hHeader.free]
  · have hLinks := sN.links
    have hNodup := sN.nodup
    have hShape : addrs ((B₁ ++ [b]) ++ n :: B₂) = (addrs B₁ ++ [b.addr]) ++ n.addr :: addrs B₂ := by simp
    have hNew : addrs (B₁ ++ b.joined n :: B₂) = (addrs B₁ ++ [b.addr]) ++ addrs B₂ := by simp
    have hLast : (addrs B₁ ++ [b.addr]).getLastD 0 = b.addr := getLastD_append_cons (addrs B₁) [] b.addr 0
    rw [hShape] at hLinks hNodup
    rw [hNew]
    refine hLinks.unlink hNodup ?_ ?_ ?_ ?_
    · rw [hLast]
      intro z hz
      obtain hz | hz := List.mem_append.mp hz
      · obtain ⟨c, hc, rfl⟩ := List.mem_map.mp hz
        have hb := hAway c (.inl hc)
        rw [mergeHeaders_away hb (.inl (by decide)), Function.update_of_ne hb]
      · obtain rfl := List.mem_singleton.mp hz
        rw [hJoined.2.1, Function.update_self]
    · intro z hz
      have hzHead := hLeft z hz
      obtain hz | hz := List.mem_append.mp hz
      · obtain ⟨c, hc, rfl⟩ := List.mem_map.mp hz
        exact mergeHeaders_away (hAway c (.inl hc)) (.inr hzHead)
      · obtain rfl := List.mem_singleton.mp hz
        exact hJoined.2.2
    · intro z hz
      obtain ⟨c, hc, rfl⟩ := List.mem_map.mp hz
      exact mergeHeaders_away (hAway c (.inr hc)) (.inl (by decide))
    · rw [hLast]
      intro z hz
      obtain ⟨c, hc, rfl⟩ := List.mem_map.mp hz
      have hb := hAway c (.inr hc)
      by_cases hIsHead : c.addr = (addrs B₂).headD 0
      · have hSome := s.addr_pos (hOthers c (.inr hc))
        rw [← hIsHead, Function.update_self]
        exact mergeHeaders_prev_head (Nat.pos_iff_ne_zero.mp hSome)
      · rw [mergeHeaders_away hb (.inr hIsHead), Function.update_of_ne hIsHead]

end Merge

end Shapes

end UnixOS.X64Heap
