import Moc.Clearsilver.HdfClean
import Moc.Client.Session

/-!
# The dataset library of the requests

The client and the server use the dataset library through the interface `HdfLib`. Here the interface is
given by the functions of `neo_hdf.c`. A dataset whose text can be carried goes through whole, from the
client's `hdf_write_string` to the server's `hdf_read_string`, exactly when it is clean and short enough
(`sendable_iff_clean`).

`links` bounds the links that one call may follow. A call that needs more does not return in the source,
and leaves the dataset as it was here.
-/

open CText Decimal Siblings TreeNode

namespace Moc

/-- The dataset after a call. -/
def HdfRun.dataset {R : Type} (x : HdfRun R) (hdf : HdfNode) : HdfNode :=
  (x.toOption.map Prod.fst).getD hdf

/-- The interface over `neo_hdf.c`. Names and values are C strings, so that no text has a NUL. -/
def neoHdf (links : ℕ) (draws : List MlBreak) : HdfLib HdfNode where
  init := hdfInit
  readString hdf text := (hdfReadString links false hdf text).dataset hdf
  writeString hdf := (hdfWriteString draws hdf).filter fun text => 0 ∉ text
  writeString_nul hdf text h := by simpa using (Option.filter_eq_some_iff.mp h).2
  objChild hdf := (hdfObjChild links hdf []).toOption.getD false
  setValue hdf key val := (hdfSetValue links hdf [] (utf8 key) val).dataset hdf
  setIntValue hdf key val := (hdfSetIntValue links hdf [] (utf8 key) val).dataset hdf
  getValue hdf key := (hdfGetValue links hdf [] (utf8 key)).toOption.join
  getObj hdf key := ((walkHdf links hdf [] (utf8 key)).toOption.join).bind hdf.find
  copy hdf key node := (hdfCopy links hdf [] (utf8 key) node).dataset hdf

/-! ## Texts without a NUL -/

/-- The values of the nodes are C strings. -/
def NulFree (s : HdfChain) : Prop := s.All fun _ d => ∀ v ∈ d.value.text, 0 ∉ v

theorem NameOk.nul {name : List UInt8} (h : NameOk name) : 0 ∉ name :=
  fun hmem => absurd (h.2 0 hmem).1 (by decide)

theorem MlBreak.nul (ml : MlBreak) : 0 ∉ ml.1 := fun hmem => absurd (ml.2.2.2 0 hmem).1 (by decide)

theorem nul_not_mem_dumpValue (ml : MlBreak) {op : UInt8} (hop : op ≠ 0) {value : List UInt8}
    (h : 0 ∉ value) : 0 ∉ dumpValue ml op value := by
  have hml := ml.nul
  unfold dumpValue
  split_ifs <;> simp [ascii, h, hml, Ne.symm hop]

theorem nul_not_mem_dumpNode {dtype : DumpType} (hd : dtype ≠ .dotted) {pre : Option (List UInt8)} {lvl : ℕ}
    {name : List UInt8} {data : HdfFields} {child : HdfChain} {breaks : List MlBreak}
    (hok : NodeOk breaks name data child) (hvalue : ∀ v ∈ data.value.text, 0 ∉ v) {ml ml' : MlBreak}
    {draws draws' : List MlBreak} {text : List UInt8}
    (h : dumpNode dtype pre lvl name data ml draws = some (text, ml', draws')) : 0 ∉ text := by
  unfold dumpNode at h
  cases hv : data.value.text with
  | none =>
    rw [hv] at h
    cases h
    exact List.not_mem_nil
  | some value =>
    rw [hv] at h
    obtain ⟨r, -, hr⟩ := Option.map_eq_some_iff.mp h
    cases hr
    have hname : 0 ∉ dumpName dtype pre lvl name := by
      rw [dumpName_eq hd, List.mem_append, not_or]
      exact ⟨fun hmem => absurd (whsp_space dtype lvl 0 hmem) (by decide), hok.1.nul⟩
    have hattr := not_mem_dumpAttrs (b := 0) (by decide) (hok.2.1 value hv).1
    rw [List.mem_append, List.mem_append, not_or, not_or]
    refine ⟨⟨hname, hattr⟩, nul_not_mem_dumpValue _ ?_ (hvalue value hv)⟩
    split_ifs <;> decide

/-- The text of nodes whose values are C strings is a C string. -/
theorem nul_not_mem_dumpChain {dtype : DumpType} (hd : dtype ≠ .dotted) {s : HdfChain}
    {breaks : List MlBreak} (hw : Writable breaks s) (hnul : NulFree s) {pre : Option (List UInt8)}
    {lvl : ℕ} {ml : MlBreak} {draws draws' : List MlBreak} {text : List UInt8}
    (h : dumpChain dtype pre lvl s ml draws = some (text, draws')) : 0 ∉ text := by
  induction s generalizing pre lvl ml draws draws' text with
  | nil =>
    cases h
    exact List.not_mem_nil
  | cons name data child next ihc ihn =>
    obtain ⟨hok, hwc, hwn⟩ := hw
    obtain ⟨hvalue, hnc, hnn⟩ := hnul
    rw [dumpChain] at h
    obtain ⟨⟨own, ml₁, draws₁⟩, hown, h⟩ := Option.bind_eq_some_iff.mp h
    obtain ⟨⟨below, draws₂⟩, hbelow, h⟩ := Option.bind_eq_some_iff.mp h
    obtain ⟨⟨behind, draws₃⟩, hbehind, h⟩ := Option.map_eq_some_iff.mp h
    cases h
    have hlower : 0 ∉ below := by
      split_ifs at hbelow
      · cases hbelow
        exact List.not_mem_nil
      · obtain ⟨⟨text, draws₂'⟩, hdump, hlevel⟩ := Option.map_eq_some_iff.mp hbelow
        cases hlevel
        have hws : 0 ∉ whsp dtype lvl := fun hmem => absurd (whsp_space dtype lvl 0 hmem) (by decide)
        simp [levelText, ascii, hws, hok.1.nul, ihc hwc hnc hdump]
    rw [List.mem_append, List.mem_append, not_or, not_or]
    exact ⟨⟨nul_not_mem_dumpNode hd hok hvalue hown, hlower⟩, ihn hwn hnn hbehind⟩

/-! ## What goes through whole -/

/-- The text of a dataset that a text can carry, and what comes back of it. -/
theorem neoHdf_round {s : HdfChain} (h : Portable s) (hnul : NulFree s) (links : ℕ)
    (draws : List MlBreak) (d : HdfFields) :
    ∃ text, (neoHdf links draws).writeString ⟨d, s⟩ = some text ∧
      (neoHdf links draws).readString (neoHdf links draws).init text = ⟨.empty, reread s⟩ := by
  obtain ⟨text, htext, hread⟩ := h.round (show DumpType.compact ≠ .dotted by decide) none
  have hfree := nul_not_mem_dumpChain (by decide) h.writable_eom hnul (htext draws)
  refine ⟨text, ?_, ?_⟩
  · show (hdfWriteString draws ⟨d, s⟩).filter _ = _
    rw [hdfWriteString, htext]
    simp [hfree]
  · show (hdfReadString links false hdfInit text).dataset hdfInit = _
    rw [hread]
    rfl

/-- A command 7 with the sample nodes. -/
def sampleNodesCall : Call Unit HdfNode := ⟨(), ⟨.empty, sampleNodes⟩, 7, 2, true⟩

end Moc
