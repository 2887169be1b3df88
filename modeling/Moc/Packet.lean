import Moc.Lib.Memory
import Moc.Hdf

/-!
# Packing and unpacking a dataset

`client/packet.c`, which the server links too. A dataset travels as one string cell: the type word,
the length of the name and the name, the length of the text and the text, and an end word behind
it. `unpackDataStr` follows the lengths it reads wherever they lead, and never looks at its own
`len` argument; `unpackDataStr_eq` says which bytes it needs.
-/

open Bytes Memory

namespace Moc

/-- `(size_t)r` -/
def sizeT (r : ℤ) : ℕ := (r % 2^64).toNat

theorem sizeT_natCast {n : ℕ} (h : n < 2^64) : sizeT n = n := by
  unfold sizeT
  omega

/-- `a - b` in `size_t`, which wraps at `2^64`. -/
def sizeSub (a b : ℕ) : ℕ := (a + 2^64 - b) % 2^64

/-- `unpack_data_str` on the cell at `pos` of the block `b`: the size of the cell as the 32-bit
`ttsize`, and the position left in `*val`, which stays `NULL` when the type is not a string. -/
def unpackDataStr (b : List UInt8) (pos _len : ℕ) : Except Fault (ℕ × Option ℕ) := do
  let vtype ← load32 b pos
  if vtype ≠ dataTypeString then return (0, none)
  let ksize ← load32 b (pos + 4)
  let vsize ← load32 b (pos + 8 + ksize)
  return ((4 + (ksize + 8) + (4 + vsize)) % 2^32, some (pos + 8 + ksize + 4))

/-- `unpack_hdf` on the cell at `pos` of the block `b`: the size that `unpack_data_str` returns, and
the fresh dataset, into which the C string at `*val` is read when there is one. -/
def unpackHdf {HDF : Type} (H : HdfLib HDF) (b : List UInt8) (pos len : ℕ) :
    Except Fault (ℕ × HDF) := do
  let (ttsize, val) ← unpackDataStr b pos len
  match val with
  | none => return (ttsize, H.init)
  | some val =>
    let text ← loadStr b val
    return (ttsize, H.readString H.init text)

/-- `pack_data_str` at `off` of the block `buf`. A value that does not fit `len - RESERVE_SIZE` is
cut there, and the text is followed by one more NUL. -/
def packDataStr (key : List UInt8) (val : Option (List UInt8)) (buf : List UInt8) (off len : ℕ) :
    Except Fault (List UInt8 × ℕ) := do
  let ksize := key.length
  let text := (val.map (· ++ [0])).getD []
  let vsize := if text.length > sizeSub len reserveSize then sizeSub len reserveSize
    else text.length
  let buf ← store buf off (be32 dataTypeString)
  let buf ← store buf (off + 4) (be32 ksize)
  let buf ← store buf (off + 8) key
  let buf ← store buf (off + 8 + ksize) (be32 vsize)
  let buf ← (if vsize > 0 then store buf (off + 8 + ksize + 4) (text.take vsize) else .ok buf)
  let buf ← store buf (off + 8 + ksize + 4 + vsize) [0]
  return (buf, 8 + ksize + 4 + vsize)

/-- `pack_hdf` at `off` of the block `buf`: the packed size, or zero when the dataset has no text
form. The end word overwrites the extra NUL. -/
def packHdf {HDF : Type} (H : HdfLib HDF) (hdf : HDF) (buf : List UInt8) (off len : ℕ) :
    Except Fault (List UInt8 × ℕ) := do
  match H.writeString hdf with
  | none => return (buf, 0)
  | some p =>
    let (buf, vsize) ← packDataStr (ascii "root") (some p) buf off len
    let buf ← store buf (off + vsize) (be32 dataTypeEof)
    return (buf, vsize + 4)

/-! ## What the decoder reads -/

/-- `unpack_data_str` without its reads: the result when every word it follows lies in the block,
and a fault otherwise. -/
theorem unpackDataStr_eq (b : List UInt8) (pos len : ℕ) :
    unpackDataStr b pos len =
      if b.length < pos + 4 then .error .outOfBounds
      else if word b pos ≠ dataTypeString then .ok (0, none)
      else if b.length < pos + word b (pos + 4) + 12 then .error .outOfBounds
      else .ok ((word b (pos + 4) + word b (pos + 8 + word b (pos + 4)) + 16) % 2^32,
        some (pos + word b (pos + 4) + 12)) := by
  unfold unpackDataStr
  by_cases h0 : b.length < pos + 4
  · rw [if_pos h0, load32_of_lt h0, error_bind]
  rw [if_neg h0, load32_of_le (by omega), ok_bind]
  by_cases hty : word b pos ≠ dataTypeString
  · rw [if_pos hty, if_pos hty, pure_eq_ok]
  rw [if_neg hty, if_neg hty]
  by_cases h1 : b.length < pos + 4 + 4
  · -- The name's length word is outside, so the larger bound fails too.
    rw [load32_of_lt h1, error_bind, if_pos (by omega)]
  rw [load32_of_le (by omega), ok_bind]
  by_cases h2 : b.length < pos + word b (pos + 4) + 12
  · rw [if_pos h2, load32_of_lt (by omega), error_bind]
  · rw [if_neg h2, load32_of_le (by omega), ok_bind, pure_eq_ok]
    congr 2
    · omega
    · congr 1; omega

/-- `unpack_hdf` without its reads. -/
theorem unpackHdf_eq {HDF : Type} (H : HdfLib HDF) (b : List UInt8) (pos len : ℕ) :
    unpackHdf H b pos len =
      if b.length < pos + 4 then .error .outOfBounds
      else if word b pos ≠ dataTypeString then .ok (0, H.init)
      else if b.length < pos + word b (pos + 4) + 12 then .error .outOfBounds
      else if 0 ∈ b.drop (pos + word b (pos + 4) + 12) then
        .ok ((word b (pos + 4) + word b (pos + 8 + word b (pos + 4)) + 16) % 2^32,
          H.readString H.init ((b.drop (pos + word b (pos + 4) + 12)).takeWhile (· ≠ 0)))
      else .error .outOfBounds := by
  rw [unpackHdf, unpackDataStr_eq]
  split_ifs with h0 hty h1 h2
  · rfl
  · rfl
  · rfl
  · simp only [ok_bind, loadStr_of_mem h2, pure_eq_ok]
  · simp only [ok_bind, loadStr_of_not_mem h2, error_bind]

/-- The lengths of the cell at `pos` lead the decoder to no byte outside the block. -/
def CellInside (b : List UInt8) (pos : ℕ) : Prop :=
  pos + 4 ≤ b.length ∧
    (word b pos = dataTypeString →
      pos + word b (pos + 4) + 12 ≤ b.length ∧ 0 ∈ b.drop (pos + word b (pos + 4) + 12))

instance (b : List UInt8) (pos : ℕ) : Decidable (CellInside b pos) :=
  inferInstanceAs (Decidable (_ ∧ (_ → _ ∧ _)))

theorem unpackHdf_inBounds_iff {HDF : Type} (H : HdfLib HDF) (b : List UInt8) (pos len : ℕ) :
    InBounds (unpackHdf H b pos len) ↔ CellInside b pos := by
  rw [unpackHdf_eq, CellInside]
  split_ifs with h0 hty h1 h2
  · simp only [inBounds_error, ne_eq, not_true_eq_false, false_iff]
    exact fun h => absurd h.1 (Nat.not_le_of_lt h0)
  · simp only [inBounds_ok, true_iff]
    exact ⟨Nat.le_of_not_lt h0, fun h => absurd h hty⟩
  · simp only [inBounds_error, ne_eq, not_true_eq_false, false_iff]
    exact fun h => absurd (h.2 (not_not.mp hty)).1 (Nat.not_le_of_lt h1)
  · simp only [inBounds_ok, true_iff]
    exact ⟨Nat.le_of_not_lt h0, fun _ => ⟨Nat.le_of_not_lt h1, h2⟩⟩
  · simp only [inBounds_error, ne_eq, not_true_eq_false, false_iff]
    exact fun h => h2 (h.2 (not_not.mp hty)).2

/-- A decoder that stays inside its block does not see what stands behind it. -/
theorem unpackHdf_append {HDF : Type} (H : HdfLib HDF) {b : List UInt8} {pos : ℕ}
    (h : CellInside b pos) (t : List UInt8) (len : ℕ) :
    unpackHdf H (b ++ t) pos len = unpackHdf H b pos len := by
  obtain ⟨hpos, hcell⟩ := h
  have hpos' : pos + 4 ≤ (b ++ t).length := by
    rw [List.length_append]
    omega
  rw [unpackHdf_eq, unpackHdf_eq, word_append hpos, if_neg (Nat.not_lt.mpr hpos'),
    if_neg (Nat.not_lt.mpr hpos)]
  by_cases hty : word b pos ≠ dataTypeString
  · rw [if_pos hty, if_pos hty]
  · obtain ⟨hlen, hnul⟩ := hcell (not_not.mp hty)
    have hlen' : pos + word b (pos + 4) + 12 ≤ (b ++ t).length := by
      rw [List.length_append]
      omega
    rw [if_neg hty, if_neg hty, word_append (by omega), word_append (by omega),
      if_neg (Nat.not_lt.mpr hlen'), if_neg (Nat.not_lt.mpr hlen),
      List.drop_append_of_le_length (by omega), if_pos (List.mem_append_left _ hnul), if_pos hnul, takeWhile_append_of_mem hnul]

/-! ## What the encoder writes -/

/-- The bytes `pack_data_str` writes for a name and a value of `vsize` bytes, before the extra
NUL. -/
def dataCell (key text : List UInt8) : List UInt8 :=
  be32 dataTypeString ++ be32 key.length ++ key ++ be32 text.length ++ text

@[simp] theorem length_dataCell (key text : List UInt8) :
    (dataCell key text).length = 12 + key.length + text.length := by
  simp [dataCell]
  omega

/-- `vsize` of `pack_data_str`: the value and its NUL, cut to `len - RESERVE_SIZE`. -/
def packedText (val : Option (List UInt8)) (len : ℕ) : List UInt8 :=
  ((val.map (· ++ [0])).getD []).take (sizeSub len reserveSize)

/-- The code compares the two sizes. -/
theorem length_packedText (val : Option (List UInt8)) (len : ℕ) :
    (packedText val len).length =
      if ((val.map (· ++ [0])).getD []).length > sizeSub len reserveSize then
        sizeSub len reserveSize
      else ((val.map (· ++ [0])).getD []).length := by
  rw [packedText, List.length_take]
  split_ifs <;> omega

/-- `pack_data_str` behind the bytes `pre` of a block with enough room. -/
theorem packDataStr_append {key pre rest : List UInt8} {val : Option (List UInt8)} {len off : ℕ}
    (hoff : off = pre.length)
    (hroom : 13 + key.length + (packedText val len).length ≤ rest.length) :
    packDataStr key val (pre ++ rest) off len =
      .ok (pre ++ dataCell key (packedText val len) ++ [0] ++
          rest.drop (13 + key.length + (packedText val len).length),
        12 + key.length + (packedText val len).length) := by
  have ht : ((val.map (· ++ [0])).getD []).take (packedText val len).length =
      packedText val len := by
    rw [packedText, List.length_take, List.take_eq_take_min]
    simp
  rw [packDataStr]
  simp only [← length_packedText, ht]
  generalize packedText val len = text at *
  subst hoff
  -- An empty value is not copied, which is what storing no byte does.
  have hval : ∀ pre' rest' : List UInt8, ∀ pos, pos = pre'.length → text.length ≤ rest'.length →
      (if text.length > 0 then store (pre' ++ rest') pos text else .ok (pre' ++ rest')) =
      .ok (pre' ++ text ++ rest'.drop text.length) := by
    intro pre' rest' pos hpos hle
    split_ifs with h0
    · exact store_append hpos hle
    · rw [List.length_eq_zero_iff.mp (by omega : text.length = 0)]
      simp
  -- Each store starts where the one before it ended.
  rw [store_append rfl (by simp; omega), ok_bind,
    store_append (by simp) (by simp; omega), ok_bind,
    store_append (by simp) (by simp; omega), ok_bind,
    store_append (by simp; omega) (by simp; omega), ok_bind,
    hval _ _ _ (by simp; omega) (by simp; omega), ok_bind,
    store_append (by simp; omega) (by simp; omega), ok_bind, pure_eq_ok]
  simp only [dataCell, List.append_assoc, List.drop_drop, length_be32, List.length_singleton]
  have hend : 4 + 4 + key.length + 4 + text.length + 1 = 13 + key.length + text.length := by omega
  rw [hend]
  congr 2
  omega

@[simp] theorem length_root : (ascii "root").length = 4 := by
  simp [ascii]

/-- The end word behind a cell starts on the extra NUL. -/
theorem store_eof {key text pre rest : List UInt8} {off : ℕ} (hoff : off = pre.length)
    (hroom : 16 + key.length + text.length ≤ rest.length) :
    store (pre ++ dataCell key text ++ [0] ++ rest.drop (13 + key.length + text.length))
        (off + (12 + key.length + text.length)) (be32 dataTypeEof) =
      .ok (pre ++ dataCell key text ++ be32 dataTypeEof ++
        rest.drop (16 + key.length + text.length)) := by
  rw [List.append_assoc _ [0], store_append (by simp; omega) (by simp; omega)]
  simp only [List.append_assoc, length_be32, Except.ok.injEq, List.append_cancel_left_eq,
    List.singleton_append, List.drop_succ_cons, List.drop_drop]
  congr 1
  omega

/-- `pack_hdf` behind the bytes `pre` of a block with enough room. -/
theorem packHdf_append {HDF : Type} {H : HdfLib HDF} {hdf : HDF} {p pre rest : List UInt8}
    {len off : ℕ} (hp : H.writeString hdf = some p) (hoff : off = pre.length)
    (hroom : 20 + (packedText (some p) len).length ≤ rest.length) :
    packHdf H hdf (pre ++ rest) off len =
      .ok (pre ++ dataCell (ascii "root") (packedText (some p) len) ++ be32 dataTypeEof ++
          rest.drop (20 + (packedText (some p) len).length),
        20 + (packedText (some p) len).length) := by
  have hkey : (ascii "root").length = 4 := length_root
  simp only [packHdf, hp]
  rw [packDataStr_append hoff (by omega), ok_bind, store_eof hoff (by omega), ok_bind, pure_eq_ok,
    hkey]
  generalize packedText (some p) len = text
  have hcell : 12 + 4 + text.length + 4 = 20 + text.length := by omega
  rw [hcell]

theorem length_packDataStr {key : List UInt8} {val : Option (List UInt8)} {buf buf' : List UInt8}
    {off len n : ℕ} (h : packDataStr key val buf off len = .ok (buf', n)) :
    buf'.length = buf.length := by
  simp only [packDataStr, bind_eq_ok] at h
  obtain ⟨b₁, h₁, b₂, h₂, b₃, h₃, b₄, h₄, b₅, h₅, b₆, h₆, h₇⟩ := h
  have hval : ∀ (v pos : ℕ) (bs : List UInt8),
      (if v > 0 then store b₄ pos bs else .ok b₄) = .ok b₅ → b₅.length = b₄.length := by
    intro v pos bs hv
    split_ifs at hv
    · exact length_store hv
    · rw [Except.ok.inj hv]
  rw [← (Prod.mk.inj (Except.ok.inj h₇)).1, length_store h₆, hval _ _ _ h₅, length_store h₄,
    length_store h₃, length_store h₂, length_store h₁]

theorem checked_packDataStr (key : List UInt8) (val : Option (List UInt8)) (buf : List UInt8)
    (off len : ℕ) : Checked (packDataStr key val buf off len) := by
  unfold packDataStr
  refine checked_bind (checked_store _ _ _) fun b₁ => checked_bind (checked_store _ _ _) fun b₂ =>
    checked_bind (checked_store _ _ _) fun b₃ => checked_bind (checked_store _ _ _) fun b₄ =>
    checked_bind ?_ fun b₅ => checked_bind (checked_store _ _ _) fun b₆ => checked_ok _
  exact checked_ite (checked_store _ _ _) (checked_ok _)

/-- The result of `pack_data_str`, which writes one byte behind the cell. -/
theorem packDataStr_fits {key : List UInt8} {val : Option (List UInt8)} {buf buf' : List UInt8}
    {off len n : ℕ} (h : packDataStr key val buf off len = .ok (buf', n)) :
    n = 12 + key.length + (packedText val len).length ∧ off + n + 1 ≤ buf.length := by
  have hlen := length_packDataStr h
  simp only [packDataStr, bind_eq_ok] at h
  obtain ⟨b₁, -, b₂, -, b₃, -, b₄, -, b₅, -, b₆, h₆, h₇⟩ := h
  obtain ⟨rfl, rfl⟩ := Prod.mk.inj (Except.ok.inj h₇)
  have hfit := store_eq_ok_iff.mp ⟨_, h₆⟩
  rw [← length_store h₆, hlen, List.length_singleton, ← length_packedText] at hfit
  rw [← length_packedText]
  omega

theorem checked_packHdf {HDF : Type} (H : HdfLib HDF) (hdf : HDF) (buf : List UInt8)
    (off len : ℕ) : Checked (packHdf H hdf buf off len) := by
  unfold packHdf
  cases H.writeString hdf with
  | none => exact checked_ok _
  | some p =>
    exact checked_bind (checked_packDataStr _ _ _ _ _) fun r =>
      checked_bind (checked_store _ _ _) fun b => checked_ok _

/-- The size of a packed dataset of this text form. -/
def packedSize (val : Option (List UInt8)) (len : ℕ) : ℕ :=
  match val with
  | none => 0
  | some p => 20 + (packedText (some p) len).length

@[simp] theorem packedSize_none (len : ℕ) : packedSize none len = 0 := rfl

/-- Packed for a block of `MAX_PACKET_LEN`. -/
theorem packedSize_some (s : List UInt8) :
    packedSize (some s) maxPacketLen = 20 + min 65024 (s.length + 1) := by
  have hlen : (packedText (some s) maxPacketLen).length = min 65024 (s.length + 1) := by
    rw [packedText]
    exact List.length_take.trans (by rw [Option.map_some, Option.getD_some, List.length_append]; rfl)
  rw [packedSize, hlen]

/-- `pack_hdf` returns the packed size when that fits the block. -/
theorem packHdf_fits {HDF : Type} {H : HdfLib HDF} {hdf : HDF} {buf buf' : List UInt8}
    {off len n : ℕ} (h : packHdf H hdf buf off len = .ok (buf', n)) (hoff : off ≤ buf.length) :
    n = packedSize (H.writeString hdf) len ∧ off + n ≤ buf.length := by
  unfold packHdf at h
  cases hp : H.writeString hdf with
  | none =>
    simp only [hp] at h
    rw [← (Prod.mk.inj (Except.ok.inj h)).2]
    exact ⟨rfl, hoff⟩
  | some p =>
    simp only [hp, bind_eq_ok] at h
    obtain ⟨⟨b₁, n₁⟩, h₁, b₂, h₂, h₃⟩ := h
    obtain ⟨hn, -⟩ := packDataStr_fits h₁
    have hfit := store_eq_ok_iff.mp ⟨_, h₂⟩
    rw [length_packDataStr h₁, length_be32] at hfit
    rw [length_root] at hn
    rw [← (Prod.mk.inj (Except.ok.inj h₃)).2, packedSize]
    omega

theorem packHdf_of_fits {HDF : Type} (H : HdfLib HDF) (hdf : HDF) {buf : List UInt8} {off len : ℕ}
    (hoff : off + packedSize (H.writeString hdf) len ≤ buf.length) :
    ∃ r, packHdf H hdf buf off len = .ok r := by
  cases hp : H.writeString hdf with
  | none => exact ⟨(buf, 0), by simp [packHdf, hp]⟩
  | some p =>
    rw [hp, packedSize] at hoff
    have hsplit : (buf.take off).length = off := List.length_take_of_le (by omega)
    have hroom : 20 + (packedText (some p) len).length ≤ (buf.drop off).length := by
      rw [List.length_drop]
      omega
    have hpack := packHdf_append hp hsplit.symm hroom
    rw [List.take_append_drop] at hpack
    exact ⟨_, hpack⟩

/-- Packing does not change the size of the block. -/
theorem length_packHdf {HDF : Type} {H : HdfLib HDF} {hdf : HDF} {buf buf' : List UInt8}
    {off len n : ℕ} (h : packHdf H hdf buf off len = .ok (buf', n)) :
    buf'.length = buf.length := by
  unfold packHdf at h
  cases hp : H.writeString hdf with
  | none =>
    simp only [hp] at h
    rw [(Prod.mk.inj (Except.ok.inj h)).1]
  | some p =>
    simp only [hp, bind_eq_ok] at h
    obtain ⟨⟨b₁, n₁⟩, h₁, b₂, h₂, h₃⟩ := h
    rw [← (Prod.mk.inj (Except.ok.inj h₃)).1, length_store h₂, length_packDataStr h₁]

/-- The value is cut short by the reserve. -/
theorem length_packedText_le (val : Option (List UInt8)) {len : ℕ} (hlen : reserveSize ≤ len) :
    (packedText val len).length ≤ len - reserveSize := by
  rw [packedText, List.length_take, sizeSub]
  omega

/-- Of the reserve, 20 bytes go to the words around the value and to the name. -/
theorem packedSize_le (val : Option (List UInt8)) {len : ℕ} (hlen : reserveSize ≤ len) :
    packedSize val len ≤ len - 492 := by
  cases val with
  | none => exact Nat.zero_le _
  | some p =>
    have htext := length_packedText_le (some p) hlen
    rw [reserveSize] at *
    rw [packedSize]
    omega

/-- `pack_hdf` into a part of a block that is at least the reserve writes nothing outside this part, and
never fills it. -/
theorem packHdf_part {HDF : Type} (H : HdfLib HDF) (hdf : HDF) (pre post : List UInt8)
    {part : List UInt8} (hlen : reserveSize ≤ part.length) :
    ∃ part' n, packHdf H hdf (pre ++ (part ++ post)) pre.length part.length =
        .ok (pre ++ (part' ++ post), n) ∧ part'.length = part.length ∧
      (n = 0 ∨ n ≤ part.length - 492) := by
  cases hp : H.writeString hdf with
  | none => exact ⟨part, 0, by simp [packHdf, hp], rfl, .inl rfl⟩
  | some p =>
    have hsize := packedSize_le (some p) hlen
    rw [packedSize] at hsize
    rw [reserveSize] at hlen
    have hroom : 20 + (packedText (some p) part.length).length ≤ part.length := by omega
    refine ⟨dataCell (ascii "root") (packedText (some p) part.length) ++ be32 dataTypeEof ++
      part.drop (20 + (packedText (some p) part.length).length), _, ?_, ?_, .inr hsize⟩
    · rw [packHdf_append hp rfl (by rw [List.length_append]; omega),
        List.drop_append_of_le_length hroom]
      simp only [List.append_assoc]
    · rw [List.length_append, List.length_append, length_dataCell, length_root, length_be32,
        List.length_drop]
      omega

/-- Packing into a block of `len` bytes that is at least the reserve stays inside it. -/
theorem packHdf_ok {HDF : Type} (H : HdfLib HDF) (hdf : HDF) (buf : List UInt8)
    (hlen : reserveSize ≤ buf.length) :
    ∃ r, packHdf H hdf buf 0 buf.length = .ok r := by
  refine packHdf_of_fits H hdf ?_
  have hsize := packedSize_le (H.writeString hdf) hlen
  rw [reserveSize] at hlen
  omega

/-! ## The decoder undoes the encoder -/

/-- `unpack_hdf` of a cell whose text ends at the first NUL behind it, whatever the size word says. -/
theorem unpackHdf_cell {HDF : Type} (H : HdfLib HDF) {pre key text post : List UInt8}
    {pos len vsize : ℕ} (hpos : pos = pre.length) (hnul : 0 ∉ text)
    (hsize : 16 + key.length + vsize < 2^32) :
    unpackHdf H (pre ++ (be32 dataTypeString ++ (be32 key.length ++ (key ++ (be32 vsize ++
        (text ++ 0 :: post)))))) pos len =
      .ok (16 + key.length + vsize, H.readString H.init text) := by
  -- The block, split at each of the three later places that are read.
  have hksize : pre ++ (be32 dataTypeString ++ (be32 key.length ++ (key ++ (be32 vsize ++
      (text ++ 0 :: post))))) = (pre ++ be32 dataTypeString) ++ (be32 key.length ++ (key ++
        (be32 vsize ++ (text ++ 0 :: post)))) := by
    simp
  have hvsize : pre ++ (be32 dataTypeString ++ (be32 key.length ++ (key ++ (be32 vsize ++
      (text ++ 0 :: post))))) = (pre ++ be32 dataTypeString ++ be32 key.length ++ key) ++
        (be32 vsize ++ (text ++ 0 :: post)) := by
    simp
  have hval : pre ++ (be32 dataTypeString ++ (be32 key.length ++ (key ++ (be32 vsize ++
      (text ++ 0 :: post))))) =
      (pre ++ be32 dataTypeString ++ be32 key.length ++ key ++ be32 vsize) ++
        (text ++ 0 :: post) := by
    simp
  have hk : key.length % 2^32 = key.length := Nat.mod_eq_of_lt (by omega)
  have hv : vsize % 2^32 = vsize := Nat.mod_eq_of_lt (by omega)
  rw [unpackHdf, unpackDataStr]
  rw [load32_between hpos, ok_bind, if_neg (by decide),
    hksize, load32_between (by simp [hpos]), ok_bind, hk, ← hksize,
    hvsize, load32_between (by simp [hpos]; omega), ok_bind, hv, ← hvsize, pure_eq_ok, ok_bind]
  dsimp only
  rw [hval, loadStr_between (by simp [hpos]; omega) hnul, ok_bind, pure_eq_ok,
    Nat.mod_eq_of_lt (by omega)]
  congr 2
  omega

/-- `unpack_hdf` of a cell that holds a text and its NUL. -/
theorem unpackHdf_dataCell {HDF : Type} (H : HdfLib HDF) {pre key text post : List UInt8}
    {pos len : ℕ} (hpos : pos = pre.length) (hnul : 0 ∉ text)
    (hsize : 17 + key.length + text.length < 2^32) :
    unpackHdf H (pre ++ (dataCell key (text ++ [0]) ++ post)) pos len =
      .ok (17 + key.length + text.length, H.readString H.init text) := by
  have hcell : dataCell key (text ++ [0]) ++ post = be32 dataTypeString ++ (be32 key.length ++
      (key ++ (be32 (text.length + 1) ++ (text ++ 0 :: post)))) := by
    simp [dataCell]
  rw [hcell, unpackHdf_cell H hpos hnul (by omega)]
  congr 2
  omega

/-- The bytes that `pack_hdf` makes of a text in a block of `MAX_PACKET_LEN`. -/
def packedVal (text : List UInt8) : List UInt8 :=
  dataCell (ascii "root") (packedText (some text) maxPacketLen) ++ be32 dataTypeEof

/-- A value keeps 65024 bytes of the text and its NUL. -/
theorem packedText_eq (text : List UInt8) :
    packedText (some text) maxPacketLen = (text ++ [0]).take 65024 := by
  rw [packedText]
  rfl

theorem length_packedVal (text : List UInt8) :
    (packedVal text).length = 20 + min 65024 (text.length + 1) := by
  simp [packedVal, packedText_eq]
  omega

/-- `pack_hdf` at the front of a block of `MAX_PACKET_LEN`. -/
theorem packHdf_block {HDF : Type} {H : HdfLib HDF} {hdf : HDF} {s buf : List UInt8}
    (hs : H.writeString hdf = some s) (hbuf : buf.length = maxPacketLen) :
    ∃ rest, packHdf H hdf buf 0 maxPacketLen = .ok (packedVal s ++ rest, (packedVal s).length) := by
  have hroom : 20 + (packedText (some s) maxPacketLen).length ≤ buf.length := by
    rw [hbuf, packedText_eq, List.length_take, maxPacketLen]
    omega
  have hpack := packHdf_append hs (List.length_nil (α := UInt8)).symm hroom
  have hsize : 20 + (packedText (some s) maxPacketLen).length = (packedVal s).length := by
    rw [packedVal, List.length_append, length_dataCell, length_be32, length_root]
    omega
  rw [List.nil_append, List.nil_append, hsize] at hpack
  exact ⟨_, hpack⟩

/-- `unpack_hdf` reads back what `pack_hdf` kept of the text. A text that was cut ends at the end
word. -/
theorem unpackHdf_packedVal {HDF : Type} (H : HdfLib HDF) {pre text post : List UInt8} {pos len : ℕ}
    (hpos : pos = pre.length) (hnul : 0 ∉ text) :
    unpackHdf H (pre ++ (packedVal text ++ post)) pos len =
      .ok (20 + min 65024 (text.length + 1), H.readString H.init (text.take 65024)) := by
  by_cases hfits : text.length ≤ 65023
  · have htake : packedText (some text) maxPacketLen = text ++ [0] := by
      rw [packedText_eq, List.take_of_length_le (by simp; omega)]
    rw [packedVal, htake, List.append_assoc, unpackHdf_dataCell H hpos hnul (by simp; omega),
      List.take_of_length_le (by omega), length_root]
    congr 2
    omega
  · have htake : packedText (some text) maxPacketLen = text.take 65024 := by
      rw [packedText_eq, List.take_append_of_le_length (by omega)]
    have hcut : packedVal text ++ post = be32 dataTypeString ++ (be32 (ascii "root").length ++
        (ascii "root" ++ (be32 65024 ++ (text.take 65024 ++ 0 :: ([0, 0, 0] ++ post))))) := by
      have hlen : (text.take 65024).length = 65024 := List.length_take_of_le (by omega)
      have heof : be32 dataTypeEof = [0, 0, 0, 0] := by decide
      rw [packedVal, htake, dataCell, hlen, heof]
      simp
    rw [hcut, unpackHdf_cell H hpos (fun h => hnul (List.mem_of_mem_take h))
      (by rw [length_root]; norm_num), length_root]
    congr 2
    omega

/-! ## What the decoder recovers -/

/-- `unpack_hdf` reads exactly the text `s` into its fresh dataset, whatever the library makes of
it. -/
def Recovers (b : List UInt8) (pos len : ℕ) (s : List UInt8) : Prop :=
  ∀ (HDF : Type) (H : HdfLib HDF), ∃ n, unpackHdf H b pos len = .ok (n, H.readString H.init s)

/-- At most one text is recovered: the library of texts tells them apart. -/
theorem Recovers.unique {b : List UInt8} {pos len : ℕ} {s t : List UInt8}
    (hs : Recovers b pos len s) (ht : Recovers b pos len t) : s = t := by
  obtain ⟨n, hn⟩ := hs _ textHdf
  obtain ⟨m, hm⟩ := ht _ textHdf
  rw [hn] at hm
  simpa [textHdf] using (Prod.mk.inj (Except.ok.inj hm)).2

theorem recovers_packedVal {pre s post : List UInt8} {pos len : ℕ} (hpos : pos = pre.length)
    (hnul : 0 ∉ s) : Recovers (pre ++ (packedVal s ++ post)) pos len (s.take 65024) :=
  fun _ H => ⟨_, unpackHdf_packedVal H hpos hnul⟩

/-- A text of more than 65024 bytes is not what its cell gives back. The one of 65024 bytes is: it
fills the value without its NUL, and the end word ends it. -/
theorem recovers_packedVal_iff {pre s post : List UInt8} {pos len : ℕ} (hpos : pos = pre.length)
    (hnul : 0 ∉ s) : Recovers (pre ++ (packedVal s ++ post)) pos len s ↔ s.length ≤ 65024 := by
  have hcut : Recovers (pre ++ (packedVal s ++ post)) pos len (s.take 65024) :=
    recovers_packedVal hpos hnul
  constructor
  · intro h
    have hlen := congrArg List.length (h.unique hcut)
    rw [List.length_take] at hlen
    omega
  · intro h
    rwa [List.take_of_length_le h] at hcut

end Moc
