import Moc.Clearsilver.HdfTokens

/-!
# What is read of what was written

`hdf_write_string` writes a dataset, and `hdf_read_string` reads it into a new one. `reread` says what
comes back: values stripped of white space at their ends, values of several lines with a newline at the
end, no attributes where there is no value, and no node that has neither a value nor children
(`readString_written`). A dataset without these is read back as it was.
-/

open CText Decimal Siblings TreeNode

namespace Moc

variable {links : ℕ} {ignore : Bool} {path : List UInt8}

/-! ## Lines -/

/-- A name that the reader takes for one component. -/
def NameOk (name : List UInt8) : Prop := name ≠ [] ∧ ∀ c ∈ name, isNameChar c = true ∧ c ≠ 46

theorem NameOk.not_space {c : UInt8} (h : isNameChar c = true) :
    isSpace c = false ∧ c ≠ 10 ∧ c ≠ 32 ∧ c ≠ 35 ∧ c ≠ 125 ∧ c ≠ 91 := by
  simp only [isNameChar, isAlnum, isDigit, isSpace, Bool.or_eq_true, Bool.and_eq_true, decide_eq_true_eq,
    Bool.or_eq_false_iff, Bool.and_eq_false_iff, decide_eq_false_iff_not, ne_eq, UInt8.le_iff_toNat_le,
    UInt8.lt_iff_toNat_lt, ← UInt8.toNat_inj, UInt8.reduceToNat] at h ⊢
  omega

/-- A line that starts with a name. -/
theorem parseLine_name {ws name t : List UInt8} (hws : ∀ c ∈ ws, isSpace c = true) (hname : NameOk name)
    (ht : ∀ c ∈ t.head?, isNameChar c = false) (lineno : ℕ) :
    parseLine ignore path lineno (ws ++ (name ++ t)) =
      if (skipWs t).head? = some 91 then do
        match ← parseAttr (skipWs t).tail with
        | .error err => return .bad err
        | .ok (attr, s) => return parseRest path lineno (ws ++ name) (ws ++ name) name attr (skipWs s)
      else .ok (parseRest path lineno (ws ++ name) (ws ++ (name ++ t)) name [] (skipWs t)) := by
  obtain ⟨hne, hchars⟩ := hname
  obtain ⟨c, name, rfl⟩ := List.exists_cons_of_ne_nil hne
  have hall : ∀ b ∈ c :: name, isNameChar b = true := fun b hb => (hchars b hb).1
  obtain ⟨hspace, -, -, hhash, hbrace, -⟩ := NameOk.not_space (hall c List.mem_cons_self)
  have hskip : skipWs (ws ++ (c :: name ++ t)) = c :: name ++ t := by
    rw [skipWs_append hws, skipWs_of_head (by simpa using hspace)]
  have hcut : (ws ++ (c :: name ++ t)).takeWhile isSpace = ws :=
    takeWhile_append_head hws (by simpa using hspace)
  have hinclude : ¬(ascii "#include " <+: c :: name ++ t ∧ ¬ignore = true) := by
    rintro ⟨hpre, -⟩
    obtain ⟨rest, hrest⟩ := hpre
    have h := congrArg List.head? hrest
    rw [List.cons_append, List.head?_cons] at h
    exact hhash (Option.some.inj h).symm
  unfold parseLine
  simp only [hskip, hcut, takeWhile_append_head hall ht, dropWhile_append_head hall ht]
  rw [if_neg hinclude]
  split
  · next h => cases h
  · next h => exact absurd (List.cons.inj h).1 hhash
  · next h => exact absurd (List.cons.inj h).1 hbrace
  · rfl

/-- A line with attributes as they are written. -/
theorem parseLine_written (ignore : Bool) (path : List UInt8) {ws name : List UInt8}
    (hws : ∀ c ∈ ws, isSpace c = true) (hname : NameOk name)
    {attr : HdfAttrs} (hattr : ∀ a ∈ attr, AttrOk a) (rest : List UInt8)
    (hrest : ∀ c ∈ rest.head?, isSpace c = false ∧ c ≠ 91) (lineno : ℕ) :
    ∃ buf, parseLine ignore path lineno (ws ++ (name ++ (dumpAttrs attr ++ 32 :: rest))) =
      .ok (parseRest path lineno (ws ++ name) buf name (attr.map rereadAttr) rest) := by
  have hskip : skipWs rest = rest := skipWs_of_head fun c hc => (hrest c hc).1
  have hskip' : skipWs (32 :: rest) = rest := by
    rw [skipWs, List.dropWhile_cons_of_pos (by rfl)]
    exact hskip
  unfold dumpAttrs
  split_ifs with hnil
  · subst hnil
    have hno : ¬rest.head? = some 91 := fun h => (hrest 91 h).2 rfl
    refine ⟨ws ++ (name ++ 32 :: rest), ?_⟩
    rw [List.nil_append, parseLine_name hws hname (by simp; decide), hskip', if_neg hno]
    rfl
  · have htext : ascii " [" ++ (ascii ", ").intercalate (attr.map dumpAttr) ++ ascii "] " ++ 32 :: rest =
        32 :: 91 :: ((ascii ", ").intercalate (attr.map dumpAttr) ++ 93 :: 32 :: 32 :: rest) := by
      rw [List.append_assoc, List.append_assoc]
      rfl
    refine ⟨ws ++ name, ?_⟩
    have hbracket : skipWs (32 :: 91 :: ((ascii ", ").intercalate (attr.map dumpAttr) ++
        93 :: 32 :: 32 :: rest)) =
          91 :: ((ascii ", ").intercalate (attr.map dumpAttr) ++ 93 :: 32 :: 32 :: rest) := rfl
    have hbehind : skipWs (32 :: 32 :: rest) = rest := by
      rw [skipWs, List.dropWhile_cons_of_pos (by rfl)]
      exact hskip'
    rw [htext, parseLine_name hws hname (by simp; decide), hbracket, List.head?_cons, if_pos rfl,
      List.tail_cons, parseAttr_dumpAttrs hattr]
    simp only [bind, Except.bind, hbehind]
    rfl

theorem not_mem_intercalate {c : UInt8} {sep : List UInt8} (hsep : c ∉ sep) {l : List (List UInt8)}
    (h : ∀ x ∈ l, c ∉ x) : c ∉ sep.intercalate l := by
  induction l with
  | nil => exact List.not_mem_nil
  | cons x l ih =>
    obtain ⟨hx, hl⟩ := List.forall_mem_cons.mp h
    cases l with
    | nil => rwa [List.intercalate_singleton]
    | cons y l =>
      rw [List.intercalate_cons_cons, List.mem_append, List.mem_append, not_or, not_or]
      exact ⟨⟨hx, hsep⟩, ih hl⟩

theorem ne_of_control {b c : UInt8} (hb : b < 32) (hc : 32 ≤ c) : b ≠ c := by
  rintro rfl
  exact UInt8.lt_irrefl _ (UInt8.lt_of_lt_of_le hb hc)

/-- No control character stands for a character of an attribute. -/
theorem not_mem_reprChar {b : UInt8} (hb : b < 32) (c : UInt8) : b ∉ reprChar c := by
  have hdigit : ∀ b' : UInt8, isDigit b' = true → b ≠ b' := by
    intro b' hb'
    rw [isDigit, Bool.and_eq_true, decide_eq_true_eq] at hb'
    exact ne_of_control hb (UInt8.le_trans (by decide) hb'.1)
  obtain ⟨h₂, h₁, h₀⟩ := isDigit_octal c
  have hesc : b ≠ 92 := ne_of_control hb (by decide)
  unfold reprChar
  split_ifs with hprint hn ht hr hq
  · rw [List.mem_singleton]
    have hge := hprint.1
    rw [isPrint, Bool.and_eq_true, decide_eq_true_eq] at hge
    exact ne_of_control hb hge.1
  · simpa [hesc] using ne_of_control hb (show 32 ≤ (110 : UInt8) by decide)
  · simpa [hesc] using ne_of_control hb (show 32 ≤ (116 : UInt8) by decide)
  · simpa [hesc] using ne_of_control hb (show 32 ≤ (114 : UInt8) by decide)
  · rcases hq with rfl | rfl
    · simpa [hesc] using ne_of_control hb (show 32 ≤ (34 : UInt8) by decide)
    · simpa using hesc
  · simpa [hesc] using ⟨hdigit _ h₂, hdigit _ h₁, hdigit _ h₀⟩

/-- No control character stands in the attributes: they are one line, and no NUL ends them. -/
theorem not_mem_dumpAttrs {b : UInt8} (hb : b < 32) {attr : HdfAttrs} (h : ∀ a ∈ attr, AttrOk a) :
    b ∉ dumpAttrs attr := by
  have hne : ∀ {t : List UInt8}, (∀ c ∈ t, 32 ≤ c) → b ∉ t := fun ht hmem =>
    ne_of_control hb (ht b hmem) rfl
  have hone : ∀ x ∈ attr.map dumpAttr, b ∉ x := by
    intro x hx
    obtain ⟨a, ha, rfl⟩ := List.mem_map.mp hx
    have hkey : b ∉ a.1 := fun hmem => by
      have halnum := (h a ha).2.1 b hmem
      simp only [isAlnum, isDigit, Bool.or_eq_true, Bool.and_eq_true, decide_eq_true_eq,
        UInt8.le_iff_toNat_le, UInt8.lt_iff_toNat_lt, UInt8.reduceToNat] at halnum hb
      omega
    have hval : b ∉ a.2.flatMap reprChar := fun hmem => by
      obtain ⟨c, -, hc⟩ := List.mem_flatMap.mp hmem
      exact not_mem_reprChar hb c hc
    have heq : b ≠ 61 := ne_of_control hb (by decide)
    have hquote : b ≠ 34 := ne_of_control hb (by decide)
    unfold dumpAttr
    split_ifs
    · exact hkey
    · rw [reprString, List.mem_append, List.mem_cons, List.mem_cons, List.mem_append]
      exact fun hmem => hmem.elim hkey (by simp [hval, heq, hquote])
  unfold dumpAttrs
  split_ifs
  · exact List.not_mem_nil
  · rw [List.mem_append, List.mem_append, not_or, not_or]
    exact ⟨⟨hne (by simp [ascii]), not_mem_intercalate (hne (by simp [ascii])) hone⟩,
      hne (by simp [ascii])⟩

/-! ## The nodes that come back -/

/-- The fields of a node after writing and reading. A link to a target of several lines is written like a
value. -/
def rereadFields (d : HdfFields) : HdfFields :=
  match d.value with
  | .null => .empty
  | .value v => ⟨.value (if 10 ∈ v then endLine v else strip v), d.attr.map rereadAttr⟩
  | .link dest =>
    ⟨if 10 ∈ dest then .value (endLine dest) else .link (strip dest), d.attr.map rereadAttr⟩

/-- The nodes after writing and reading. -/
def reread : HdfChain → HdfChain
  | .nil => .nil
  | .cons name data child next =>
    if data.value = .null ∧ child = .nil then reread next
    else .cons name (rereadFields data) (reread child) (reread next)

/-- A node that is written as something the reader takes for the node: its name is a name, its attributes
have keys, none of the terminators that do not clash with a value of several lines is met in it, and a
link has no children. -/
def NodeOk (breaks : List MlBreak) (name : List UInt8) (data : HdfFields) (child : HdfChain) : Prop :=
  NameOk name ∧ (∀ v, data.value.text = some v → (∀ a ∈ data.attr, AttrOk a) ∧
    (10 ∈ v → ∀ w ∈ breaks, clashes w v = false → Unbroken w.1 (endLine v))) ∧
    (data.value.linkTo ≠ none → child = .nil)

/-- Nodes all of which are written so. -/
def Writable (breaks : List MlBreak) : HdfChain → Prop
  | .nil => True
  | .cons name data child next =>
    NodeOk breaks name data child ∧ Writable breaks child ∧ Writable breaks next

/-! ## Nodes appended -/

/-- The dataset with nodes behind the last child of a node. -/
def appendAt (top : HdfNode) (hdf : HdfPtr) (s : HdfChain) : HdfNode :=
  top.alter .empty (fun n => ⟨n.data, n.child.append s⟩) hdf

section
variable {top n : HdfNode} {hdf : HdfPtr} {name : List UInt8}

theorem appendAt_append (s t : HdfChain) :
    appendAt (appendAt top hdf s) hdf t = appendAt top hdf (s.append t) := by
  rw [appendAt, appendAt, alter_alter]
  simp only [append_assoc]
  rfl

theorem appendAt_nil (hn : top.find hdf = some n) : appendAt top hdf .nil = top :=
  alter_of_find hn (by rw [append_nil])

theorem find_appendAt (hn : top.find hdf = some n) (s : HdfChain) :
    (appendAt top hdf s).find hdf = some ⟨n.data, n.child.append s⟩ := by
  rw [appendAt, find_alter_self, hn]
  rfl

/-- The new node is found under its name. -/
theorem find_appendAt_single (hn : top.find hdf = some n) (hname : name ∉ n.child.keys) (m : HdfNode) :
    (appendAt top hdf (.single name m)).find (hdf ++ [name]) = some m := by
  rw [find_append, find_appendAt hn, Option.bind_some, find, get_append_single hname]
  rfl

/-- Nodes appended to a new node. -/
theorem appendAt_below (hn : top.find hdf = some n) (hname : name ∉ n.child.keys) (m : HdfNode)
    (s : HdfChain) :
    appendAt (appendAt top hdf (.single name m)) (hdf ++ [name]) s =
      appendAt top hdf (.single name ⟨m.data, m.child.append s⟩) := by
  rw [appendAt, appendAt, alter_append, alter_alter, appendAt]
  refine alter_congr ?_
  have hset := set_of_not_mem (m := ⟨m.data, m.child.append s⟩) hname
  rw [hn, Option.getD_some, alter, get_append_single hname]
  dsimp only
  rw [← hset, ← set_of_not_mem (m := m) hname, set_set]
  rfl

theorem NameOk.components_eq (h : NameOk name) : components name = [name] :=
  List.splitOn_eq_singleton fun hdot => (h.2 46 hdot).2 rfl

/-- `_set_value` of a new child. -/
theorem setValue_new (links : ℕ) (hn : top.find hdf = some n) (hlink : n.data.value.linkTo = none)
    (hok : NameOk name) (hname : name ∉ n.child.keys) (value : HdfValue) (attr : HdfAttrs) :
    setValue links top hdf name value attr =
      .ok (appendAt top hdf (.single name ⟨⟨value, attr⟩, .nil⟩), .ok (hdf ++ [name])) := by
  unfold setValue setCall
  rw [if_neg hok.1, hok.components_eq, if_neg (by simpa using hok.1), hn, Option.bind_some, hlink,
    Option.getD_some, setLoop, if_neg hok.1, get_eq_none.mpr hname, if_pos rfl]
  dsimp only
  rw [appendAt]
  exact congrArg (fun t => Except.ok (t, Except.ok (hdf ++ [name]))) (alter_congr (by rw [hn]; rfl))

end

/-! ## Reading one node -/

section
variable {top n : HdfNode} {hdf : HdfPtr} {name : List UInt8} {ws : List UInt8}

theorem newline_not_mem_name (h : NameOk name) : 10 ∉ name :=
  fun hmem => (NameOk.not_space (h.2 10 hmem).1).2.1 rfl

theorem strip_break (ml : MlBreak) : strip (32 :: ml.1) = ml.1 := by
  have hletter : ∀ c ∈ ml.1, isSpace c = false := fun c hc => by
    obtain ⟨hlo, hhi⟩ := ml.2.2.2 c hc
    simp only [isSpace, Bool.or_eq_false_iff, Bool.and_eq_false_iff, decide_eq_false_iff_not,
      UInt8.le_iff_toNat_le, ← UInt8.toNat_inj, UInt8.reduceToNat] at hlo hhi ⊢
    omega
  rw [strip_cons (by rfl)]
  exact strip_of_trimmed ⟨fun c hc => hletter c (List.mem_of_mem_head? hc),
    fun c hc => hletter c (List.mem_of_getLast? hc)⟩

/-- The text of a value of several lines, with what stands behind it. -/
theorem dumpValue_append {value : List UInt8} (h : 10 ∈ value) (ml : MlBreak) (op : UInt8)
    (rest : List UInt8) : dumpValue ml op value ++ rest =
      32 :: 60 :: 60 :: 32 :: ml.1 ++ 10 :: (endLine value ++ (ml.1 ++ 10 :: rest)) := by
  have hopen : ascii " << " = [32, 60, 60, 32] := by decide
  rw [dumpValue, if_pos h, endLine, hopen]
  split_ifs <;> simp

theorem rereadFields_of_newline {data : HdfFields} {value : List UInt8}
    (hvalue : data.value.text = some value) (h : 10 ∈ value) :
    rereadFields data = ⟨.value (endLine value), data.attr.map rereadAttr⟩ := by
  unfold rereadFields
  cases hv : data.value with
  | null => rw [hv] at hvalue; cases hvalue
  | value v =>
    rw [hv] at hvalue
    cases hvalue
    simp [h]
  | link dest =>
    rw [hv] at hvalue
    cases hvalue
    simp [h]

/-- Reading the text into a node that has none of the names appends the nodes to its children. -/
def ReadsAs (links : ℕ) (ignore : Bool) (path text : List UInt8) (s : HdfChain) : Prop :=
  ∀ (top : HdfNode) (hdf : HdfPtr) (n : HdfNode), top.find hdf = some n →
    n.data.value.linkTo = none → (∀ k ∈ s.keys, k ∉ n.child.keys) → ∀ (rest : List UInt8) (lineno : ℕ),
    ∃ lineno', readString links ignore path top hdf (text ++ rest) lineno =
      readString links ignore path (appendAt top hdf s) hdf rest lineno'

theorem readsAs_nil : ReadsAs links ignore path [] .nil := by
  intro top hdf n hn _ _ rest lineno
  rw [appendAt_nil hn]
  exact ⟨lineno, rfl⟩

theorem ReadsAs.append {text text' : List UInt8} {s s' : HdfChain} (h : ReadsAs links ignore path text s)
    (h' : ReadsAs links ignore path text' s') (hkeys : ∀ k ∈ s.keys, k ∉ s'.keys) :
    ReadsAs links ignore path (text ++ text') (s.append s') := by
  intro top hdf n hn hlink hnew rest lineno
  rw [keys_append] at hnew
  obtain ⟨lineno₁, hfirst⟩ := h top hdf n hn hlink
    (fun k hk => hnew k (List.mem_append_left _ hk)) (text' ++ rest) lineno
  obtain ⟨lineno₂, hsecond⟩ := h' _ hdf _ (find_appendAt hn s) hlink (fun k hk => by
    rw [keys_append, List.mem_append, not_or]
    exact ⟨hnew k (List.mem_append_right _ hk), fun hk' => hkeys k hk' hk⟩) rest lineno₁
  refine ⟨lineno₂, ?_⟩
  rw [List.append_assoc, hfirst, hsecond, appendAt_append]

/-- The line or the lines of a node with a value. -/
theorem readsAs_value (hws : ∀ c ∈ ws, c = 32) (hok : NameOk name) {data : HdfFields}
    {value : List UInt8} (hvalue : data.value.text = some value) (hattr : ∀ a ∈ data.attr, AttrOk a)
    {ml : MlBreak} (hml : 10 ∈ value → Unbroken ml.1 (endLine value)) :
    ReadsAs links ignore path (ws ++ name ++ dumpAttrs data.attr ++
        dumpValue ml (if data.value.linkTo = none then 61 else 58) value)
      (.single name ⟨rereadFields data, .nil⟩) := by
  intro top hdf n hn hlink hnew rest lineno
  have hname : name ∉ n.child.keys := hnew name List.mem_cons_self
  have hspace : ∀ c ∈ ws, isSpace c = true := fun c hc => hws c hc ▸ rfl
  have hline : ∀ t : List UInt8, 10 ∉ t → 10 ∉ ws ++ (name ++ (dumpAttrs data.attr ++ 32 :: t)) := by
    intro t ht
    simp only [List.mem_append, List.mem_cons, not_or]
    exact ⟨fun hmem => absurd (hws 10 hmem) (by decide), newline_not_mem_name hok,
      not_mem_dumpAttrs (by decide) hattr, by decide, ht⟩
  have hset := fun v => setValue_new links hn hlink hok hname v (data.attr.map rereadAttr)
  by_cases hnl : 10 ∈ value
  · -- Two lines with the terminator around the value.
    have hw : 10 ∉ ml.1 := fun hmem => absurd (ml.2.2.2 10 hmem).1 (by decide)
    obtain ⟨buf, hparse⟩ := parseLine_written ignore path hspace hok hattr
      (60 :: 60 :: 32 :: ml.1) (by simp; decide) (lineno + 1)
    obtain ⟨lineno', hread⟩ := (readMulti_written hw (by have := ml.2.2.1; omega) rest (lineno + 1)).1
      (hml hnl)
    have hne : ml.1 ≠ [] := fun h => by
      have hlen := ml.2.1
      rw [h] at hlen
      exact absurd hlen (by decide)
    refine ⟨lineno', ?_⟩
    have htext : ws ++ name ++ dumpAttrs data.attr ++
        dumpValue ml (if data.value.linkTo = none then 61 else 58) value ++ rest =
        ws ++ (name ++ (dumpAttrs data.attr ++ 32 :: (60 :: 60 :: 32 :: ml.1))) ++
          10 :: (endLine value ++ (ml.1 ++ 10 :: rest)) := by
      rw [List.append_assoc, dumpValue_append hnl]
      simp
    rw [htext, readString_line (hline _ (by simp [hw])), hparse, parseRest, strip_break, if_neg hne]
    simp only [Except.bind, execLine, hread, hset, HdfRun.andThen, rereadFields_of_newline hvalue hnl]
  · -- One line.
    have htext : ∀ op : UInt8, ws ++ name ++ dumpAttrs data.attr ++ dumpValue ml op value ++ rest =
        ws ++ (name ++ (dumpAttrs data.attr ++ 32 :: (op :: 32 :: value))) ++ 10 :: rest := by
      intro op
      rw [dumpValue, if_neg hnl]
      simp
    refine ⟨lineno + 1, ?_⟩
    cases hv : data.value with
    | null =>
      rw [hv] at hvalue
      cases hvalue
    | value v =>
      rw [hv] at hvalue
      cases hvalue
      obtain ⟨buf, hparse⟩ := parseLine_written ignore path hspace hok hattr
        (61 :: 32 :: value) (by simp; decide) (lineno + 1)
      have hop : (HdfValue.value value).linkTo = none := rfl
      rw [if_pos hop, htext, readString_line (hline _ (by simp [hnl])), hparse,
        parseRest, strip_cons (by rfl)]
      simp only [Except.bind, execLine, hset, HdfRun.andThen, rereadFields, hv, if_neg hnl]
    | link dest =>
      rw [hv] at hvalue
      cases hvalue
      obtain ⟨buf, hparse⟩ := parseLine_written ignore path hspace hok hattr
        (58 :: 32 :: value) (by simp; decide) (lineno + 1)
      have hop : ¬(HdfValue.link value).linkTo = none := by simp [HdfValue.linkTo]
      rw [if_neg hop, htext, readString_line (hline _ (by simp [hnl])), hparse,
        parseRest, strip_cons (by rfl)]
      · simp only [Except.bind, execLine, hset, HdfRun.andThen, rereadFields, hv, if_neg hnl]
      · simp

/-- `name {` for a node that is there. -/
theorem openLower_old (hn : top.find hdf = some n) (hlink : n.data.value.linkTo = none)
    (hok : NameOk name) {m : HdfNode} (hm : n.child.get name = some m)
    (hmlink : m.data.value.linkTo = none) :
    openLower links top hdf name [] = .ok (top, .ok (hdf ++ [name])) := by
  have hfind : top.find (hdf ++ [name]) = some m := by
    rw [find_append, hn, Option.bind_some, find, hm]
    rfl
  have hwalk : walkHdf links top hdf name = .ok (some (hdf ++ [name])) := by
    rw [walkHdf, walkCall, if_neg hok.1, hn, Option.bind_some, hlink, hok.components_eq]
    dsimp only
    rw [walkLoop, hn, Option.bind_some, hm]
    dsimp only
    rw [hmlink]
    rfl
  have hself : m.data.assign m.data.value.unlinked [] = m.data := by
    obtain ⟨⟨value, attr⟩, child⟩ := m
    cases value with
    | link dest => cases hmlink
    | null => cases attr <;> rfl
    | value v => cases attr <;> rfl
  rw [openLower, hwalk]
  simp only [Except.bind, hfind, Option.map_some, Option.getD_some, setValue, setCall, if_true]
  have htop : top.update .empty (·.assign m.data.value.unlinked []) (hdf ++ [name]) = top :=
    alter_of_find hfind (by
      dsimp only
      rw [hself])
  rw [htop]

/-- `name {` for a new node. -/
theorem openLower_new (hn : top.find hdf = some n) (hlink : n.data.value.linkTo = none)
    (hok : NameOk name) (hname : name ∉ n.child.keys) :
    openLower links top hdf name [] =
      .ok (appendAt top hdf (.single name ⟨.empty, .nil⟩), .ok (hdf ++ [name])) := by
  have hwalk : walkHdf links top hdf name = .ok none := by
    rw [walkHdf, walkCall, if_neg hok.1, hn, Option.bind_some, hlink, hok.components_eq]
    dsimp only
    rw [walkLoop, hn, Option.bind_some, get_eq_none.mpr hname]
  rw [openLower, hwalk]
  exact setValue_new links hn hlink hok hname _ _

/-- A level of children, once its node is there. -/
theorem readString_level (hws : ∀ c ∈ ws, c = 32) (hok : NameOk name) {text : List UInt8} {c : HdfChain}
    (hc : ReadsAs links ignore path text c) {m : HdfNode} (hmlink : m.data.value.linkTo = none)
    (hmchild : m.child = .nil) {top' : HdfNode}
    (hopen : openLower links top hdf name [] = .ok (top', .ok (hdf ++ [name])))
    (hm : top'.find (hdf ++ [name]) = some m) (rest : List UInt8) (lineno : ℕ) :
    ∃ lineno', readString links ignore path top hdf (levelText ws name text ++ rest) lineno =
      readString links ignore path (appendAt top' (hdf ++ [name]) c) hdf rest lineno' := by
  have hspace : ∀ b ∈ ws, isSpace b = true := fun b hb => hws b hb ▸ rfl
  have hnl : 10 ∉ ws := fun hmem => absurd (hws 10 hmem) (by decide)
  have htext : levelText ws name text ++ rest =
      ws ++ (name ++ (dumpAttrs [] ++ 32 :: [123])) ++ 10 :: (text ++ (ws ++ [125] ++ 10 :: rest)) := by
    have hopen : ascii " \x7b\n" = [32, 123, 10] := by decide
    have hclose : ascii "\x7d\n" = [125, 10] := by decide
    rw [levelText, hopen, hclose, dumpAttrs, if_pos rfl]
    simp
  have hattr : ∀ a ∈ ([] : HdfAttrs), AttrOk a := by simp
  obtain ⟨buf, hparse⟩ := parseLine_written ignore path hspace hok hattr [123] (by simp; decide)
    (lineno + 1)
  obtain ⟨lineno', hread⟩ := hc top' _ m hm hmlink (by rw [hmchild]; simp [keys])
    (ws ++ [125] ++ 10 :: rest) (lineno + 1)
  have hup : parseLine ignore path (lineno' + 1) (ws ++ [125]) = .ok .up := by
    have hbrace : skipWs [125] = [125] := rfl
    unfold parseLine
    rw [skipWs_append hspace, hbrace, if_neg fun h => absurd h.1 (by decide)]
    rfl
  refine ⟨lineno' + 1, ?_⟩
  rw [htext, readString_line (by simp [hnl, newline_not_mem_name hok, dumpAttrs]), hparse, parseRest]
  simp only [Except.bind, execLine, List.map_nil, hopen, HdfRun.andThen, hread]
  rw [readString_line (by simp [hnl]), hup]
  rfl

/-- A level of children of a node without a value. -/
theorem readsAs_level (hws : ∀ c ∈ ws, c = 32) (hok : NameOk name) {text : List UInt8} {c : HdfChain}
    (hc : ReadsAs links ignore path text c) :
    ReadsAs links ignore path (levelText ws name text) (.single name ⟨.empty, c⟩) := by
  intro top hdf n hn hlink hnew rest lineno
  have hname : name ∉ n.child.keys := hnew name List.mem_cons_self
  obtain ⟨lineno', h⟩ := readString_level (m := ⟨.empty, .nil⟩) hws hok hc rfl rfl
    (openLower_new hn hlink hok hname) (find_appendAt_single hn hname _) rest lineno
  exact ⟨lineno', by rw [h, appendAt_below hn hname]; rfl⟩

/-- The lines of a node with a value, and its children. -/
theorem ReadsAs.value_level (hws : ∀ c ∈ ws, c = 32) (hok : NameOk name) {text text' : List UInt8}
    {data : HdfFields} (hv : ReadsAs links ignore path text (.single name ⟨data, .nil⟩))
    (hdata : data.value.linkTo = none) {c : HdfChain} (hc : ReadsAs links ignore path text' c) :
    ReadsAs links ignore path (text ++ levelText ws name text') (.single name ⟨data, c⟩) := by
  intro top hdf n hn hlink hnew rest lineno
  have hname : name ∉ n.child.keys := hnew name List.mem_cons_self
  obtain ⟨lineno₁, h₁⟩ := hv top hdf n hn hlink hnew (levelText ws name text' ++ rest) lineno
  have hn' := find_appendAt hn (.single name ⟨data, .nil⟩)
  obtain ⟨lineno₂, h₂⟩ := readString_level (m := ⟨data, .nil⟩) hws hok hc hdata rfl
    (openLower_old hn' hlink hok (get_append_single hname) hdata) (find_appendAt_single hn hname _) rest
    lineno₁
  exact ⟨lineno₂, by rw [List.append_assoc, h₁, h₂, appendAt_below hn hname]; rfl⟩

end

/-! ## Reading a dataset -/

theorem mem_keys_reread {s : HdfChain} {k : List UInt8} (h : k ∈ (reread s).keys) : k ∈ s.keys := by
  induction s with
  | nil => exact h
  | cons name data child next _ ih =>
    rw [reread] at h
    split_ifs at h with hgone
    · exact List.mem_cons_of_mem _ (ih h)
    · exact (List.mem_cons.mp h).elim (fun h => h ▸ List.mem_cons_self) fun h =>
        List.mem_cons_of_mem _ (ih h)

theorem whsp_space (dtype : DumpType) (lvl : ℕ) : ∀ c ∈ whsp dtype lvl, c = 32 := by
  intro c hc
  unfold whsp at hc
  split_ifs at hc
  · exact List.eq_of_mem_replicate hc
  · exact absurd hc List.not_mem_nil

theorem dumpName_eq {dtype : DumpType} (hd : dtype ≠ .dotted) (pre : Option (List UInt8)) (lvl : ℕ)
    (name : List UInt8) : dumpName dtype pre lvl name = whsp dtype lvl ++ name :=
  if_neg fun h => hd h.1

/-- The chosen terminator does not clash, and it and the draws left are among those at hand. -/
theorem chooseBreak_mem {breaks : List MlBreak} {ml ml' : MlBreak} {draws draws' : List MlBreak}
    {value : List UInt8} (h : chooseBreak ml draws value = some (ml', draws')) (hml : ml ∈ breaks)
    (hdraws : ∀ w ∈ draws, w ∈ breaks) :
    clashes ml' value = false ∧ ml' ∈ breaks ∧ ∀ w ∈ draws', w ∈ breaks := by
  induction draws generalizing ml with
  | nil =>
    rw [chooseBreak] at h
    split_ifs at h with hclash
    cases h
    exact ⟨Bool.eq_false_iff.mpr hclash, hml, hdraws⟩
  | cons w draws ih =>
    rw [chooseBreak] at h
    split_ifs at h with hclash
    · exact ih h (hdraws w List.mem_cons_self) fun w hw => hdraws w (List.mem_cons_of_mem _ hw)
    · cases h
      exact ⟨Bool.eq_false_iff.mpr hclash, hml, hdraws⟩

/-- The text of one node without its children. -/
theorem readsAs_dumpNode (links : ℕ) (ignore : Bool) (path : List UInt8) {dtype : DumpType}
    (hd : dtype ≠ .dotted) {breaks : List MlBreak}
    {pre : Option (List UInt8)} {lvl : ℕ} {name : List UInt8} {data : HdfFields} {child : HdfChain}
    (hok : NodeOk breaks name data child) {ml ml' : MlBreak} {draws draws' : List MlBreak}
    {text : List UInt8} (h : dumpNode dtype pre lvl name data ml draws = some (text, ml', draws'))
    (hml : ml ∈ breaks) (hdraws : ∀ w ∈ draws, w ∈ breaks) :
    ml' ∈ breaks ∧ (∀ w ∈ draws', w ∈ breaks) ∧
      if data.value = .null then text = []
      else ReadsAs links ignore path text (.single name ⟨rereadFields data, .nil⟩) := by
  unfold dumpNode at h
  cases hvalue : data.value.text with
  | none =>
    rw [hvalue] at h
    cases h
    have hnull : data.value = .null := by
      cases hv : data.value with
      | null => rfl
      | value v => rw [hv] at hvalue; cases hvalue
      | link dest => rw [hv] at hvalue; cases hvalue
    rw [if_pos hnull]
    exact ⟨hml, hdraws, rfl⟩
  | some value =>
    have hnull : data.value ≠ .null := fun hv => by rw [hv] at hvalue; cases hvalue
    obtain ⟨hname, hvalues, -⟩ := hok
    obtain ⟨hattr, hbreak⟩ := hvalues value hvalue
    rw [hvalue] at h
    dsimp only at h
    rw [if_neg hnull]
    by_cases hnl : 10 ∈ value
    · rw [if_pos hnl] at h
      obtain ⟨⟨ml₁, draws₁⟩, hchoose, hrest⟩ := Option.map_eq_some_iff.mp h
      cases hrest
      obtain ⟨hclash, hml₁, hdraws₁⟩ := chooseBreak_mem hchoose hml hdraws
      refine ⟨hml₁, hdraws₁, ?_⟩
      rw [dumpName_eq hd]
      exact readsAs_value (whsp_space _ _) hname hvalue hattr fun _ => hbreak hnl _ hml₁ hclash
    · rw [if_neg hnl] at h
      cases h
      refine ⟨hml, hdraws, ?_⟩
      rw [dumpName_eq hd]
      exact readsAs_value (whsp_space _ _) hname hvalue hattr fun h => absurd h hnl

/-- The text of a chain of nodes is read as the nodes that come back. -/
theorem readsAs_dumpChain (links : ℕ) (ignore : Bool) (path : List UInt8) {dtype : DumpType}
    (hd : dtype ≠ .dotted) {breaks : List MlBreak}
    (heom : eom ∈ breaks) {s : HdfChain} (hs : s.Distinct) (hw : Writable breaks s)
    {pre : Option (List UInt8)} {lvl : ℕ} {ml : MlBreak} {draws draws' : List MlBreak}
    {text : List UInt8} (h : dumpChain dtype pre lvl s ml draws = some (text, draws'))
    (hml : ml ∈ breaks) (hdraws : ∀ w ∈ draws, w ∈ breaks) :
    (∀ w ∈ draws', w ∈ breaks) ∧ ReadsAs links ignore path text (reread s) := by
  induction s generalizing pre lvl ml draws draws' text with
  | nil =>
    cases h
    exact ⟨hdraws, readsAs_nil⟩
  | cons name data child next ihc ihn =>
    obtain ⟨hname, hdc, hdn⟩ := hs
    obtain ⟨hok, hwc, hwn⟩ := hw
    rw [dumpChain] at h
    obtain ⟨⟨own, ml₁, draws₁⟩, hown, h⟩ := Option.bind_eq_some_iff.mp h
    obtain ⟨⟨below, draws₂⟩, hbelow, h⟩ := Option.bind_eq_some_iff.mp h
    obtain ⟨⟨behind, draws₃⟩, hbehind, h⟩ := Option.map_eq_some_iff.mp h
    cases h
    obtain ⟨hml₁, hdraws₁, hread⟩ := readsAs_dumpNode links ignore path hd hok hown hml hdraws
    have hkeys : ∀ m : HdfNode, ∀ k ∈ (single name m).keys, k ∉ (reread next).keys := by
      intro m k hk hmem
      rw [List.mem_singleton.mp hk] at hmem
      exact hname (mem_keys_reread hmem)
    rw [reread]
    by_cases hchild : child = .nil
    · rw [if_pos hchild] at hbelow
      cases hbelow
      obtain ⟨hdraws', hnext⟩ := ihn hdn hwn hbehind hml₁ hdraws₁
      refine ⟨hdraws', ?_⟩
      rw [List.append_nil]
      by_cases hnull : data.value = .null
      · rw [if_pos hnull] at hread
        rw [if_pos ⟨hnull, hchild⟩, hread]
        exact hnext
      · rw [if_neg hnull] at hread
        rw [if_neg fun h => hnull h.1, hchild]
        exact hread.append hnext (hkeys _)
    · rw [if_neg hchild, if_neg hd] at hbelow
      obtain ⟨⟨text, draws₂'⟩, hdump, hbelow⟩ := Option.map_eq_some_iff.mp hbelow
      cases hbelow
      obtain ⟨hdraws₂, hsub⟩ := ihc hdc hwc hdump heom hdraws₁
      obtain ⟨hdraws', hnext⟩ := ihn hdn hwn hbehind hml₁ hdraws₂
      refine ⟨hdraws', ?_⟩
      rw [if_neg fun h => hchild h.2]
      have hlink : data.value.linkTo = none := by
        by_contra h
        exact hchild (hok.2.2 h)
      by_cases hnull : data.value = .null
      · rw [if_pos hnull] at hread
        have hfields : rereadFields data = .empty := by
          unfold rereadFields
          rw [hnull]
        rw [hread, hfields]
        exact (readsAs_level (whsp_space _ _) hok.1 hsub).append hnext (hkeys _)
      · rw [if_neg hnull] at hread
        have hfields : (rereadFields data).value.linkTo = none := by
          unfold rereadFields
          cases hv : data.value with
          | null => rfl
          | value v => rfl
          | link dest => rw [hv] at hlink; cases hlink
        exact (ReadsAs.value_level (whsp_space _ _) hok.1 hread hfields hsub).append hnext (hkeys _)

/-- What `hdf_write_string` or `hdf_write_file` has written is read into a new dataset as the nodes that
come back. -/
theorem readString_written {dtype : DumpType} (hd : dtype ≠ .dotted) {draws draws' : List MlBreak}
    {pre : Option (List UInt8)} {s : HdfChain} (hs : s.Distinct) (hw : Writable (eom :: draws) s)
    {text : List UInt8} (h : dumpChain dtype pre 0 s eom draws = some (text, draws')) :
    hdfReadString links ignore hdfInit text = .ok (⟨.empty, reread s⟩, .ok ()) := by
  obtain ⟨-, hread⟩ := readsAs_dumpChain links ignore (ascii "<string>") hd List.mem_cons_self hs hw h
    List.mem_cons_self fun w hw => List.mem_cons_of_mem _ hw
  obtain ⟨lineno, hrun⟩ := hread hdfInit [] hdfInit rfl rfl (fun k _ => List.not_mem_nil) [] 0
  rw [List.append_nil, readString_nil] at hrun
  rw [hdfReadString, hrun]
  rfl

end Moc
