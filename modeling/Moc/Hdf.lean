import Mathlib.Data.Nat.Notation
import Mathlib.Data.Int.Notation
import Mathlib.Tactic.SplitIfs

/-!
# The constants both sides share, and the dataset library

`client/moc-private.h` and `client/packet.h` fix the limits and codes that the server and the client
agree on; `client/lerr.c` registers the error codes in order, the first as 14. The HDF dataset is
the vendored library's own type. The code uses it through the few functions of `HdfLib`, which stay
opaque here: a dataset is written to and read from a C string, and looked up by dotted names.
-/

namespace Moc

/-- `MAX_PACKET_LEN` -/
def maxPacketLen : ℕ := 64 * 1024
/-- `RESERVE_SIZE`, kept free behind a value by `pack_data_str`. -/
def reserveSize : ℕ := 512
/-- `PROTO_VER`, the version nibble of a request header. -/
def protoVer : ℕ := 1
/-- `FLAGS_SYNC`, the flag bit that asks for a reply. -/
def flagsSync : ℕ := 2
/-- `DATA_TYPE_EOF` -/
def dataTypeEof : ℕ := 0
/-- `DATA_TYPE_STRING` -/
def dataTypeString : ℕ := 3

/-- `REP_OK`, the first of the success codes. -/
def repOk : ℕ := 1000
/-- `REP_ERR` -/
def repErr : ℕ := 14
/-- `REP_ERR_VER` -/
def repErrVer : ℕ := 15
/-- `REP_ERR_SEND` -/
def repErrSend : ℕ := 16
/-- `REP_ERR_BROKEN` -/
def repErrBroken : ℕ := 17
/-- `REP_ERR_UNKREQ` -/
def repErrUnkreq : ℕ := 18
/-- `REP_ERR_MEM` -/
def repErrMem : ℕ := 19
/-- `REP_ERR_BUSY` -/
def repErrBusy : ℕ := 21
/-- `REP_ERR_PACK` -/
def repErrPack : ℕ := 22
/-- `REP_ERR_BADPARAM` -/
def repErrBadparam : ℕ := 23
/-- `REP_ERR_CACHE_MISS` -/
def repErrCacheMiss : ℕ := 24

/-- `NERR_ASSERT`, the second error that the vendored library registers. -/
def nerrAssert : ℕ := 2
/-- `NERR_NOMEM` -/
def nerrNomem : ℕ := 5

/-- `NEOERR`: its number and its text. -/
structure NeoErr where
  error : ℕ
  desc : List UInt8
  deriving DecidableEq

/-- The bytes of an ASCII string literal, without the terminating NUL. -/
def ascii (s : String) : List UInt8 := s.toList.map fun c => UInt8.ofNat c.toNat

/-- The bytes of a text that are not all ASCII. -/
def utf8 (s : String) : List UInt8 := s.toUTF8.toList

/-- The functions of the dataset library that the code calls, over the library's dataset type. -/
structure HdfLib (HDF : Type) where
  /-- `hdf_init`: a dataset with no node. -/
  init : HDF
  /-- `hdf_read_string`: the dataset after reading the text of a C string into it. The callers
  ignore the error it may return; the nodes read before the error stay. -/
  readString : HDF → List UInt8 → HDF
  /-- `hdf_write_string`: the text form of the dataset, or none on an error. -/
  writeString : HDF → Option (List UInt8)
  /-- A text form is a C string. -/
  writeString_nul : ∀ hdf text, writeString hdf = some text → 0 ∉ text
  /-- `hdf_obj_child(hdf) != NULL` -/
  objChild : HDF → Bool
  /-- `hdf_set_value` -/
  setValue : HDF → String → List UInt8 → HDF
  /-- `hdf_set_int_value` -/
  setIntValue : HDF → String → ℤ → HDF
  /-- `hdf_get_value`, or none when the node is missing. -/
  getValue : HDF → String → Option (List UInt8)
  /-- `hdf_get_obj` -/
  getObj : HDF → String → Option HDF
  /-- `hdf_copy`: the dataset with a copy of a node under a name. -/
  copy : HDF → String → HDF → HDF

/-- The library with a dataset that is its own text and has no names to look up. -/
def textHdf : HdfLib (List UInt8) where
  init := []
  readString hdf text := hdf ++ text
  writeString hdf := if 0 ∈ hdf then none else some hdf
  writeString_nul hdf text h := by
    split_ifs at h with h0
    rwa [← Option.some.inj h]
  objChild hdf := hdf ≠ []
  setValue hdf _ _ := hdf
  setIntValue hdf _ _ := hdf
  getValue _ _ := none
  getObj _ _ := none
  copy hdf _ node := hdf ++ node

theorem textHdf_writeString {s : List UInt8} (h : 0 ∉ s) : textHdf.writeString s = some s := if_neg h

/-- The functions of the library that only the plugins and the client's pushes use. -/
structure PushLib (HDF : Type) extends HdfLib HDF where
  /-- `hdf_set_attr`, or none when the node is missing. -/
  setAttr : HDF → String → List UInt8 → List UInt8 → Option HDF
  /-- `hdf_get_attr`: the attributes of a node, in order. -/
  getAttr : HDF → String → List (List UInt8 × List UInt8)
  /-- `hdf_remove_tree` -/
  removeTree : HDF → String → HDF
  /-- `hdf_obj_value` -/
  objValue : HDF → Option (List UInt8)
  /-- `nerr_error_traceback` -/
  traceback : NeoErr → List UInt8
  /-- The error of `MCS_NOT_NULLC`. -/
  nullParam : NeoErr

/-- Writing a dataset to its text and reading the text back gives the dataset. What is written are the
children, and a new dataset has none. -/
structure HdfLib.RoundTrips {HDF : Type} (H : HdfLib HDF) : Prop where
  read_write : ∀ hdf text, H.writeString hdf = some text → H.readString H.init text = hdf
  write_childless : ∀ hdf, H.objChild hdf = false → H.writeString hdf = some []
  objChild_init : H.objChild H.init = false

theorem HdfLib.RoundTrips.childless {HDF : Type} {H : HdfLib HDF} (hlaws : H.RoundTrips) {hdf : HDF}
    (h : H.objChild hdf = false) : hdf = H.init := by
  have hread := hlaws.read_write _ _ (hlaws.write_childless _ h)
  rwa [hlaws.read_write _ _ (hlaws.write_childless _ hlaws.objChild_init), eq_comm] at hread

/-- What a push asks of its node `_Reserve`: the attribute that was set last under a name is found
last under that name, and removing the node removes all that was added to it. -/
structure PushLib.Reserves {HDF : Type} (H : PushLib HDF) : Prop where
  getAttr_setAttr : ∀ hdf hdf' name val, H.setAttr hdf "_Reserve" name val = some hdf' →
    ∃ before after, H.getAttr hdf' "_Reserve" = before ++ (name, val) :: after ∧
      ∀ attr ∈ after, attr.1 ≠ name
  removeTree_setAttr : ∀ hdf hdf' name val, H.setAttr hdf "_Reserve" name val = some hdf' →
    H.removeTree hdf' "_Reserve" = H.removeTree hdf "_Reserve"
  removeTree_setValue : ∀ hdf val,
    H.removeTree (H.setValue hdf "_Reserve" val) "_Reserve" = H.removeTree hdf "_Reserve"

/-- The library with a dataset that is its own text and the value of its one node, `userid`. -/
def useridHdf : PushLib (List UInt8) where
  toHdfLib := { textHdf with getValue := fun hdf key => if key = "userid" then some hdf else none }
  setAttr hdf _ _ _ := some hdf
  getAttr _ _ := []
  removeTree hdf _ := hdf
  objValue hdf := some hdf
  traceback err := err.desc
  nullParam := ⟨nerrAssert, ascii "null"⟩

/-- The library with a dataset of at most one node, `Output.errmsg`, whose value is its text. -/
def errmsgHdf : PushLib (Option (List UInt8)) where
  init := none
  readString _ text := some text
  writeString hdf := if 0 ∈ hdf.getD [] then none else some (hdf.getD [])
  writeString_nul hdf text h := by
    split_ifs at h with h0
    rwa [← Option.some.inj h]
  objChild hdf := hdf.isSome
  setValue hdf key val := if key = "Output.errmsg" then some val else hdf
  setIntValue hdf _ _ := hdf
  getValue hdf key := if key = "Output.errmsg" then hdf else none
  getObj _ _ := none
  copy hdf _ _ := hdf
  setAttr hdf _ _ _ := some hdf
  getAttr _ _ := []
  removeTree hdf _ := hdf
  objValue hdf := hdf
  traceback err := err.desc
  nullParam := ⟨nerrAssert, ascii "null"⟩

/-- The text of a dataset of `reserveHdf`. -/
def reserveText (hdf : Option (List UInt8) × List UInt8) : List UInt8 :=
  match hdf.1 with
  | none => if hdf.2 = [] then [] else 1 :: hdf.2
  | some cmd => 2 :: (cmd ++ 1 :: hdf.2)

/-- The dataset of a text of `reserveHdf`. -/
def reserveRead : List UInt8 → Option (List UInt8) × List UInt8
  | [] => (none, [])
  | c :: text =>
    if c = 1 then (none, text) else (some (text.takeWhile (· ≠ 1)), (text.dropWhile (· ≠ 1)).tail)

/-- The library with a dataset that is a text, beside at most one node, `_Reserve`, whose only
attribute `cmd` is the first component. -/
def reserveHdf : PushLib (Option (List UInt8) × List UInt8) where
  init := (none, [])
  readString _ := reserveRead
  writeString hdf := if 0 ∈ reserveText hdf ∨ 1 ∈ hdf.1.getD [] then none else some (reserveText hdf)
  writeString_nul hdf text h := by
    split_ifs at h with h0
    rw [← Option.some.inj h]
    exact fun hmem => h0 (Or.inl hmem)
  objChild hdf := hdf ≠ (none, [])
  setValue hdf key val := if key = "_Reserve" then (some (hdf.1.getD []), hdf.2) else (hdf.1, val)
  setIntValue hdf _ _ := hdf
  getValue hdf _ := some hdf.2
  getObj _ _ := none
  copy hdf _ node := (hdf.1, hdf.2 ++ node.2)
  setAttr hdf key name val :=
    if key = "_Reserve" ∧ name = ascii "cmd" ∧ hdf.1.isSome then some (some val, hdf.2) else none
  getAttr hdf _ := [(ascii "cmd", hdf.1.getD [])]
  removeTree hdf key := if key = "_Reserve" then (none, hdf.2) else hdf
  objValue hdf := some hdf.2
  traceback err := err.desc
  nullParam := ⟨nerrAssert, ascii "null"⟩

theorem reserveHdf_roundTrips : reserveHdf.RoundTrips where
  read_write hdf text h := by
    obtain ⟨cmd, val⟩ := hdf
    simp only [reserveHdf] at h ⊢
    split_ifs at h with hno
    rw [← Option.some.inj h]
    cases cmd with
    | none =>
      by_cases hval : val = []
      · simp [reserveText, reserveRead, hval]
      · simp [reserveText, reserveRead, hval]
    | some cmd =>
      have hcmd : ∀ c ∈ cmd, decide (c ≠ 1) = true := by
        intro c hc
        rw [decide_eq_true_eq]
        rintro rfl
        exact hno (Or.inr hc)
      simp only [reserveText, reserveRead]
      rw [if_neg (by decide), List.takeWhile_append_of_pos hcmd, List.dropWhile_append_of_pos hcmd]
      simp
  write_childless hdf h := by
    have hinit : hdf = (none, []) := by simpa [reserveHdf] using h
    rw [hinit]
    rfl
  objChild_init := rfl

theorem reserveHdf_reserves : reserveHdf.Reserves where
  getAttr_setAttr hdf hdf' name val h := by
    simp only [reserveHdf] at h ⊢
    split_ifs at h with hname
    rw [← Option.some.inj h, hname.2.1]
    exact ⟨[], [], rfl, by simp⟩
  removeTree_setAttr hdf hdf' name val h := by
    simp only [reserveHdf] at h ⊢
    split_ifs at h with hname
    rw [← Option.some.inj h]
    rfl
  removeTree_setValue _ _ := rfl

end Moc
