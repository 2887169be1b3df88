import Moc.Clearsilver.HdfRound

/-!
# Datasets that survive their text

Which datasets are read back as they were. A value whose text never has `EOM` before white space is
written with the first terminator, whatever `gen_ml_break` would draw, and read whole. Then the text gives
the dataset back exactly when the dataset is clean (`hdfRound_iff`).
-/

open CText Decimal Siblings

namespace Moc

/-! ## The first terminator -/

/-- The value of several lines never has `EOM` before white space, nor at its end. -/
def EomFree (value : List UInt8) : Prop :=
  10 ∈ value → ∀ c, isSpace c = true → ¬eom.1 ++ [c] <:+: endLine value

theorem EomFree.not_clashes {value : List UInt8} (h : EomFree value) (hnl : 10 ∈ value) :
    clashes eom value = false := by
  have hinfix : value <:+: endLine value := by
    unfold endLine
    split_ifs
    · exact List.infix_refl _
    · exact (List.prefix_append ..).isInfix
  refine Bool.eq_false_iff.mpr fun hclash => ?_
  rw [clashes, Bool.or_eq_true, Bool.and_eq_true, decide_eq_true_eq] at hclash
  rcases hclash with hin | ⟨-, hend⟩
  · refine h hnl 10 rfl (List.IsInfix.trans ?_ (hin.trans hinfix))
    exact ⟨[10], [], by simp⟩
  · -- The newline that is written behind the value follows its last characters.
    rw [List.isSuffixOf_iff_suffix] at hend
    obtain ⟨front, rfl⟩ := hend
    refine h hnl 10 rfl ⟨front ++ [10], [], ?_⟩
    have hlast : (front ++ 10 :: eom.1).getLast? ≠ some 10 := by
      rw [List.getLast?_append_of_ne_nil _ (by simp)]
      decide
    rw [endLine, if_neg hlast]
    simp

/-- Every value of the nodes is free of `EOM`. -/
def AllEomFree (s : HdfChain) : Prop := s.All fun _ d => ∀ v ∈ d.value.text, EomFree v

theorem dumpNode_eom (dtype : DumpType) (pre : Option (List UInt8)) (lvl : ℕ) (name : List UInt8)
    {data : HdfFields} (h : ∀ v ∈ data.value.text, EomFree v) :
    ∃ text, ∀ draws, dumpNode dtype pre lvl name data eom draws = some (text, eom, draws) := by
  unfold dumpNode
  cases hvalue : data.value.text with
  | none => exact ⟨[], fun _ => rfl⟩
  | some value =>
    dsimp only
    by_cases hnl : 10 ∈ value
    · have hchoose : ∀ draws, chooseBreak eom draws value = some (eom, draws) := by
        intro draws
        have hclash := (h value hvalue).not_clashes hnl
        cases draws <;> rw [chooseBreak, if_neg (by simp [hclash])]
      simp only [if_pos hnl, hchoose, Option.map_some]
      exact ⟨_, fun _ => rfl⟩
    · simp only [if_neg hnl, Option.map_some]
      exact ⟨_, fun _ => rfl⟩

/-- Without `EOM` in the values nothing is drawn. -/
theorem dumpChain_eom {s : HdfChain} (h : AllEomFree s) (dtype : DumpType)
    (pre : Option (List UInt8)) (lvl : ℕ) : ∃ text, ∀ draws,
      dumpChain dtype pre lvl s eom draws = some (text, draws) := by
  induction s generalizing pre lvl with
  | nil => exact ⟨[], fun draws => rfl⟩
  | cons name data child next ihc ihn =>
    obtain ⟨hd, hc, hn⟩ := h
    obtain ⟨own, hown⟩ := dumpNode_eom dtype pre lvl name hd
    obtain ⟨behind, hbehind⟩ := ihn hn pre lvl
    simp only [dumpChain, hown, Option.bind_some]
    by_cases hchild : child = .nil
    · simp only [if_pos hchild, Option.bind_some, hbehind, Option.map_some]
      exact ⟨_, fun _ => rfl⟩
    · by_cases hdotted : dtype = .dotted
      · obtain ⟨below, hbelow⟩ := ihc hc (some (dottedName pre name)) (lvl + 1)
        simp only [if_neg hchild, if_pos hdotted, hbelow, Option.bind_some, hbehind, Option.map_some]
        exact ⟨_, fun _ => rfl⟩
      · obtain ⟨below, hbelow⟩ := ihc hc (some name) (lvl + 1)
        simp only [if_neg hchild, if_neg hdotted, hbelow, Option.map_some, Option.bind_some, hbehind]
        exact ⟨_, fun _ => rfl⟩

/-! ## What comes back as it was -/

/-- Fields that are read as they were written: a value in one line has no white space at its ends, one of
several lines ends with a newline, a link is one line, no attribute has the value `1`, and there are no
attributes without a value. -/
def FieldsClean (d : HdfFields) : Prop :=
  match d.value with
  | .null => d.attr = []
  | .value v =>
    (if 10 ∈ v then v.getLast? = some 10 else Trimmed v) ∧ ∀ a ∈ d.attr, a.2 ≠ ascii "1"
  | .link dest => 10 ∉ dest ∧ Trimmed dest ∧ ∀ a ∈ d.attr, a.2 ≠ ascii "1"

/-- Nodes that are read as they were written: their fields are, and each has a value or children. -/
def Clean : HdfChain → Prop
  | .nil => True
  | .cons _ data child next =>
    FieldsClean data ∧ (data.value ≠ .null ∨ child ≠ .nil) ∧ Clean child ∧ Clean next

theorem map_rereadAttr_eq {attr : HdfAttrs} :
    attr.map rereadAttr = attr ↔ ∀ a ∈ attr, a.2 ≠ ascii "1" := by
  have hone : ∀ a : List UInt8 × List UInt8, rereadAttr a = a ↔ a.2 ≠ ascii "1" := by
    rintro ⟨key, val⟩
    unfold rereadAttr
    split_ifs with h
    · have hne : [] ≠ ascii "1" := by decide
      have hval : val = ascii "1" := h
      simp [hval, hne]
    · simpa using h
  induction attr with
  | nil => simp
  | cons a attr ih => simp only [List.map_cons, List.cons.injEq, hone, ih, List.forall_mem_cons]

theorem endLine_eq {v : List UInt8} : endLine v = v ↔ v.getLast? = some 10 := by
  unfold endLine
  split_ifs with h <;> simp [h]

theorem strip_eq {v : List UInt8} : strip v = v ↔ Trimmed v :=
  ⟨fun h => h ▸ trimmed_strip v, strip_of_trimmed⟩

theorem rereadFields_eq {d : HdfFields} : rereadFields d = d ↔ FieldsClean d := by
  obtain ⟨value, attr⟩ := d
  cases value with
  | null => simp [rereadFields, FieldsClean, HdfFields.empty, eq_comm]
  | value v =>
    simp only [rereadFields, FieldsClean, HdfFields.mk.injEq, HdfValue.value.injEq, map_rereadAttr_eq]
    split_ifs with hnl
    · rw [endLine_eq]
    · rw [strip_eq]
  | link dest =>
    simp only [rereadFields, FieldsClean, HdfFields.mk.injEq, map_rereadAttr_eq]
    split_ifs with hnl
    · simp [hnl]
    · simp [hnl, strip_eq]

theorem length_keys_reread_le (s : HdfChain) : (reread s).keys.length ≤ s.keys.length := by
  induction s with
  | nil => exact le_refl _
  | cons name data child next _ ih =>
    rw [reread]
    split_ifs
    · exact ih.trans (Nat.le_succ _)
    · exact Nat.succ_le_succ ih

theorem reread_eq {s : HdfChain} : reread s = s ↔ Clean s := by
  induction s with
  | nil => simp [reread, Clean]
  | cons name data child next ihc ihn =>
    rw [reread, Clean]
    split_ifs with hgone
    · -- A node that is not written does not come back.
      constructor
      · intro h
        have hlen := length_keys_reread_le next
        rw [h, keys, List.length_cons] at hlen
        omega
      · rintro ⟨-, hsome, -⟩
        exact absurd hgone (by tauto)
    · rw [Siblings.cons.injEq, rereadFields_eq, ihc, ihn]
      tauto

/-- A dataset whose names, attributes and values a text can carry: siblings have different names, names and
keys are what the reader takes for them, a link has no children, and no value has `EOM` before white
space. -/
structure Portable (s : HdfChain) : Prop where
  distinct : s.Distinct
  writable : Writable [] s
  eomFree : AllEomFree s

theorem Portable.writable_eom {s : HdfChain} (h : Portable s) : Writable [eom] s := by
  obtain ⟨-, hw, he⟩ := h
  induction s with
  | nil => trivial
  | cons name data child next ihc ihn =>
    obtain ⟨⟨hname, hvalues, hlink⟩, hwc, hwn⟩ := hw
    obtain ⟨hd, hc, hn⟩ := he
    refine ⟨⟨hname, fun v hv => ⟨(hvalues v hv).1, fun hnl w hw _ => ?_⟩, hlink⟩, ihc hwc hc, ihn hwn hn⟩
    rw [List.mem_singleton.mp hw]
    exact unbroken_of_not_infix (hd v hv hnl)

/-- The nodes of such a dataset are written as one text, whatever is drawn, and come back of it. -/
theorem Portable.round {s : HdfChain} (h : Portable s) {dtype : DumpType} (hd : dtype ≠ .dotted)
    (pre : Option (List UInt8)) :
    ∃ text, (∀ draws, dumpChain dtype pre 0 s eom draws = some (text, draws)) ∧ ∀ links ignore,
      hdfReadString links ignore hdfInit text = .ok (⟨.empty, reread s⟩, .ok ()) := by
  obtain ⟨text, htext⟩ := dumpChain_eom h.eomFree dtype pre 0
  exact ⟨text, htext, fun _ _ => readString_written hd h.distinct h.writable_eom (htext [])⟩

/-- A node `a` with an attribute and a value of two lines, and below it `b = 1`. -/
def sampleNodes : HdfChain :=
  .cons [97] ⟨.value [120, 10, 121, 10], [([107], [118])]⟩ (.single [98] ⟨⟨.value [49], []⟩, .nil⟩) .nil

theorem sampleNodes_portable : Portable sampleNodes := by
  have hname : NameOk [97] ∧ NameOk [98] := ⟨⟨by simp, by simp; decide⟩, ⟨by simp, by simp; decide⟩⟩
  have hfree : ∀ v : List UInt8, 69 ∉ endLine v → EomFree v := by
    intro v hv _ c _ hin
    exact hv (hin.subset (by simp [eom, ascii]))
  refine ⟨⟨by simp [keys], ⟨by simp [keys], trivial, trivial⟩, trivial⟩, ⟨⟨hname.1, ?_, ?_⟩,
    ⟨⟨hname.2, ?_, ?_⟩, trivial, trivial⟩, trivial⟩, ⟨?_, ⟨?_, trivial, trivial⟩, trivial⟩⟩
  · rintro v -
    refine ⟨?_, fun _ w hw => absurd hw List.not_mem_nil⟩
    simp [AttrOk]
    decide
  · simp [HdfValue.linkTo]
  · rintro v -
    exact ⟨by simp, fun _ w hw => absurd hw List.not_mem_nil⟩
  · simp [HdfValue.linkTo]
  · rintro v hv
    cases hv
    exact hfree _ (by decide)
  · rintro v hv
    cases hv
    exact hfree _ (by decide)

end Moc
