import Moc.Clearsilver.HdfPaths
import Moc.Clearsilver.HdfRound

/-!
# Whether reading ends

A text without a link line is read to its end or to its first error without following a link
(`readString_returns`). One link line can make the reader call itself without a bound, until the stack or
the memory is used up (`readString_endless`).
-/

open CText Siblings TreeNode

namespace Moc

/-! ## Reading to the end -/

/-- The nodes of a dataset are still there in another one. -/
def NodesStay (top top' : HdfNode) : Prop := ∀ p : HdfPtr, (top.find p).isSome → (top'.find p).isSome

theorem NodesStay.update (top : HdfNode) (f : HdfFields → HdfFields) (path : HdfPtr) :
    NodesStay top (top.update .empty f path) := by
  have hdata : ∀ (n : HdfNode) (p : HdfPtr), (n.find p).isSome = (n.dataAt p).isSome := fun n p => by
    rw [TreeNode.dataAt, Option.isSome_map]
  intro p hp
  rw [hdata] at hp ⊢
  rw [dataAt_update]
  split_ifs
  · rfl
  · rfl
  · exact hp

/-- A call that needs no room for links: it gives the same with any, and does not go on forever. It keeps
the dataset free of links and all its nodes, and its result is as `P` says. -/
def Returns {R : Type} (top : HdfNode) (x : ℕ → HdfRun R) (P : HdfNode → R → Prop) : Prop :=
  ∃ y, (∀ links, x links = y) ∧ y ≠ .error .endless ∧
    ∀ top' r, y = .ok (top', r) → LinkFree top' ∧ NodesStay top top' ∧ ∀ a, r = .ok a → P top' a

section
variable {top : HdfNode} {hdf : HdfPtr}

theorem Returns.congr {R : Type} {x x' : ℕ → HdfRun R} {P : HdfNode → R → Prop}
    (hx : ∀ links, x links = x' links) (h : Returns top x' P) : Returns top x P := by
  rwa [funext hx]

theorem Returns.imp {R : Type} {x : ℕ → HdfRun R} {P Q : HdfNode → R → Prop} (h : Returns top x P)
    (hPQ : ∀ top' a, P top' a → Q top' a) : Returns top x Q := by
  obtain ⟨y, hy, hne, hr⟩ := h
  refine ⟨y, hy, hne, fun top' r heq => ?_⟩
  obtain ⟨hfree, hstay, hP⟩ := hr top' r heq
  exact ⟨hfree, hstay, fun a ha => hPQ top' a (hP a ha)⟩

theorem Returns.ok {R : Type} {P : HdfNode → R → Prop} (h : LinkFree top) {r : Except NeoErr R}
    (hr : ∀ a, r = .ok a → P top a) : Returns top (fun _ => .ok (top, r)) P := by
  refine ⟨_, fun _ => rfl, fun hend => (by cases hend), fun top' r' heq => ?_⟩
  cases heq
  exact ⟨h, fun _ hp => hp, hr⟩

theorem Returns.overrun {R : Type} {P : HdfNode → R → Prop} :
    Returns top (fun _ => .error .overrun) P := by
  refine ⟨_, fun _ => rfl, fun hend => ?_, fun top' r heq => ?_⟩
  · cases hend
  · cases heq

theorem Returns.andThen {R S : Type} {x : ℕ → HdfRun R} {f : ℕ → HdfNode → R → HdfRun S}
    {P : HdfNode → R → Prop} {Q : HdfNode → S → Prop} (hx : Returns top x P)
    (hf : ∀ top' a, LinkFree top' → NodesStay top top' → P top' a →
      Returns top' (fun links => f links top' a) Q) :
    Returns top (fun links => (x links).andThen (f links)) Q := by
  obtain ⟨y, hxy, hne, hy⟩ := hx
  cases y with
  | error stop =>
    refine ⟨.error stop, fun links => ?_, fun hend => hne ?_, fun _ _ heq => by cases heq⟩
    · show (x links).andThen (f links) = .error stop
      rw [hxy]
      rfl
    · cases hend
      rfl
  | ok r =>
    obtain ⟨top', r⟩ := r
    obtain ⟨hfree, hwithin, hr⟩ := hy top' r rfl
    cases r with
    | error err =>
      refine ⟨.ok (top', .error err), fun links => ?_, fun hend => (by cases hend), fun top₂ r₂ heq => ?_⟩
      · show (x links).andThen (f links) = .ok (top', .error err)
        rw [hxy]
        rfl
      · cases heq
        exact ⟨hfree, hwithin, fun a ha => by cases ha⟩
    | ok a =>
      obtain ⟨z, hz, hzne, hzr⟩ := hf top' a hfree hwithin (hr a rfl)
      refine ⟨z, fun links => ?_, hzne, fun top₂ r₂ heq => ?_⟩
      · show (x links).andThen (f links) = z
        rw [hxy]
        exact hz links
      · obtain ⟨hfree₂, hwithin₂, hr₂⟩ := hzr top₂ r₂ heq
        exact ⟨hfree₂, fun p hp => hwithin₂ p (hwithin p hp), hr₂⟩

theorem setValue_returns (h : LinkFree top) (hhdf : (top.find hdf).isSome) (name : List UInt8)
    {value : HdfValue} (hvalue : value.linkTo = none) (attr : HdfAttrs) :
    Returns top (fun links => setValue links top hdf name value attr)
      fun top' node => (top'.find node).isSome := by
  obtain ⟨n, hn⟩ := Option.isSome_iff_exists.mp hhdf
  refine ⟨_, fun links => setValue_eq h hn, ?_, fun top' r heq => ?_⟩
  · split_ifs
    · exact fun hend => by cases hend
    · exact fun hend => by cases hend
  · split_ifs at heq with hempty
    · cases heq
      exact ⟨h.update (fun _ hd => hd) _, NodesStay.update _ _ _, fun a ha => by cases ha⟩
    · cases heq
      refine ⟨h.update (fun _ _ => hvalue) _, NodesStay.update _ _ _, fun a ha => ?_⟩
      cases ha
      rw [update, find_alter_self]
      rfl

theorem linkTo_unlinked (v : HdfValue) : v.unlinked.linkTo = none := by
  cases v <;> rfl

theorem openLower_returns (h : LinkFree top) (hhdf : (top.find hdf).isSome) (name : List UInt8)
    (attr : HdfAttrs) :
    Returns top (fun links => openLower links top hdf name attr)
      fun top' node => (top'.find node).isSome := by
  obtain ⟨n, hn⟩ := Option.isSome_iff_exists.mp hhdf
  cases hfind : n.find (nameParts name) with
  | none =>
    have hnull : HdfValue.null.linkTo = none := rfl
    refine (setValue_returns h hhdf name hnull attr).congr fun links => ?_
    rw [openLower, walkHdf_eq h hn, hfind]
    rfl
  | some m =>
    have hm : top.find (hdf ++ nameParts name) = some m := by rw [find_append, hn]; exact hfind
    have hlower : (top.find (hdf ++ nameParts name)).isSome := by
      rw [hm]
      rfl
    refine (setValue_returns h hlower [] (linkTo_unlinked m.data.value) attr).congr fun links => ?_
    rw [openLower, walkHdf_eq h hn, hfind]
    simp only [Option.map_some, Except.bind, hm]
    rfl

end

/-! ### Lines -/

theorem bind_eq_error_iff {E A B : Type} {x : Except E A} {f : A → Except E B} {e : E} :
    x.bind f = .error e ↔ x = .error e ∨ ∃ a, x = .ok a ∧ f a = .error e := by
  cases x <;> simp [Except.bind]

theorem quotedLoop_error {fuel : ℕ} {s : List UInt8} {stop : HdfStop}
    (h : quotedLoop fuel s = .error stop) : stop = .overrun := by
  induction fuel generalizing s with
  | zero => cases h
  | succ fuel ih =>
    cases s with
    | nil => cases h
    | cons c s =>
      have hpush : ∀ (c : UInt8) (s : List UInt8), ((quotedLoop fuel s).bind fun r =>
          (.ok (r.map fun r => (c :: r.1, r.2)) : Except HdfStop _)) = .error stop → stop = .overrun := by
        intro c s hpush
        rcases bind_eq_error_iff.mp hpush with hrest | ⟨r, -, hr⟩
        · exact ih hrest
        · cases hr
      rw [quotedLoop] at h
      split_ifs at h
      · cases h
        rfl
      · exact hpush _ _ h
      · exact hpush _ _ h
      · exact hpush _ _ h

theorem attrValue_error {s : List UInt8} {stop : HdfStop} (h : attrValue s = .error stop) :
    stop = .overrun := by
  unfold attrValue at h
  dsimp only at h
  split_ifs at h
  · rcases bind_eq_error_iff.mp h with hquoted | ⟨r, -, hr⟩
    · exact quotedLoop_error hquoted
    · cases hr

theorem attrLoop_error {fuel : ℕ} {s : List UInt8} {stop : HdfStop}
    (h : attrLoop fuel s = .error stop) : stop = .overrun := by
  induction fuel generalizing s with
  | zero => cases h
  | succ fuel ih =>
    rw [attrLoop] at h
    dsimp only at h
    split_ifs at h
    rcases bind_eq_error_iff.mp h with hvalue | ⟨r, -, hrest⟩
    · exact attrValue_error hvalue
    · cases r with
      | none => cases hrest
      | some r =>
        rcases bind_eq_error_iff.mp hrest with hloop | ⟨attr, -, hattr⟩
        · exact ih hloop
        · cases hattr

section
variable {ignore : Bool} {path : List UInt8}

/-- A line stops the reader only behind the end of the line. -/
theorem parseLine_error {lineno : ℕ} {line : List UInt8} {stop : HdfStop}
    (h : parseLine ignore path lineno line = .error stop) : stop = .overrun := by
  unfold parseLine at h
  dsimp only at h
  split at h
  · cases h
  · split at h
    · cases h
    · cases h
    · cases h
    · split at h
      · rcases bind_eq_error_iff.mp h with hattr | ⟨r, -, hr⟩
        · rcases bind_eq_error_iff.mp hattr with hloop | ⟨attr, -, hattr⟩
          · exact attrLoop_error hloop
          · cases attr <;> cases hattr
        · cases r <;> cases hr
      · cases h

theorem copyLineAdvance_suffix (str : List UInt8) : (copyLineAdvance str).2 <:+ str :=
  (List.tail_suffix _).trans (List.dropWhile_suffix _)

theorem multiLoop_suffix (value : List UInt8) (fuel mmax : ℕ) (m str : List UInt8) (lineno : ℕ) :
    (multiLoop value fuel mmax m str lineno).2.1 <:+ str := by
  induction fuel generalizing mmax m str lineno with
  | zero => exact List.suffix_refl _
  | succ fuel ih =>
    have hcopy : (copyLine (mmax - m.length - 1) str).2 <:+ str := ⟨_, copyLine_append _ _⟩
    simp only [multiLoop]
    split_ifs
    · exact hcopy
    · exact hcopy
    · exact (ih _ _ _ _).trans hcopy
    · exact (ih _ _ _ _).trans hcopy

/-- No rest of the text starts with a link line. The terminator of a value can stand inside a line, so that
the reader goes on from there. -/
def NoLinkLine (ignore : Bool) (path str : List UInt8) : Prop :=
  ∀ t, t <:+ str → ∀ lineno name dest attr,
    parseLine ignore path lineno (copyLineAdvance t).1 ≠ .ok (.link name dest attr)

/-- What the loop does from any rest of the text on: it returns with a rest. -/
def ReturnsFrom (again : ℕ → HdfReader) (rest : List UInt8) : Prop :=
  ∀ (top : HdfNode) (hdf : HdfPtr) (str : List UInt8) (lineno : ℕ), str <:+ rest → LinkFree top →
    (top.find hdf).isSome →
    Returns top (fun links => again links top hdf str lineno) fun _ r => r.1 <:+ rest

theorem ReturnsFrom.set {again : ℕ → HdfReader} {rest : List UInt8} (h : ReturnsFrom again rest)
    {top : HdfNode} {hdf : HdfPtr} (hfree : LinkFree top) (hhdf : (top.find hdf).isSome)
    (name : List UInt8) (value : HdfValue) (attr : HdfAttrs) (str : List UInt8) (lineno : ℕ)
    (hvalue : value.linkTo = none) (hstr : str <:+ rest) :
    Returns top (fun links => (setValue links top hdf name value attr).andThen fun top _ =>
      again links top hdf str lineno) fun _ r => r.1 <:+ rest :=
  (setValue_returns hfree hhdf name hvalue attr).andThen fun top' _ hfree' hstay _ =>
    h top' hdf str lineno hstr hfree' (hstay hdf hhdf)

/-- What follows a line that makes no link. -/
theorem ReturnsFrom.execLine {again : ℕ → HdfReader} {rest : List UInt8} (h : ReturnsFrom again rest)
    {top : HdfNode} {hdf : HdfPtr} (hfree : LinkFree top) (hhdf : (top.find hdf).isSome) (lineno : ℕ)
    {line : HdfLine} (hline : ∀ name dest attr, line ≠ .link name dest attr) :
    Returns top (fun links => execLine links (again links) top hdf rest lineno line)
      fun _ r => r.1 <:+ rest := by
  cases line with
  | blank => exact h _ _ _ _ (List.suffix_refl _) hfree hhdf
  | up =>
    refine Returns.ok hfree fun a ha => ?_
    cases ha
    exact List.suffix_refl _
  | bad err => exact Returns.ok hfree fun a ha => by cases ha
  | assign name value attr => exact h.set hfree hhdf name _ attr _ _ rfl (List.suffix_refl _)
  | copy name src attr =>
    have hcopy := h.set hfree hhdf name
      (.value (((top.dataAt (nameParts src)).bind (·.value.text)).getD [])) attr _ lineno rfl
      (List.suffix_refl _)
    refine hcopy.congr fun links => ?_
    rw [Moc.execLine, hdfGetValue_eq hfree find_nil]
    rfl
  | link name dest attr => exact absurd rfl (hline name dest attr)
  | deeper name attr =>
    have hlower : ∀ top₁ lower, LinkFree top₁ → NodesStay top top₁ → (top₁.find lower).isSome →
        Returns top₁ (fun links => (again links top₁ lower rest lineno).andThen fun top₂ r =>
          again links top₂ hdf r.1 r.2) fun _ r => r.1 <:+ rest :=
      fun top₁ lower hfree₁ hstay₁ hlower =>
        (h top₁ lower _ _ (List.suffix_refl _) hfree₁ hlower).andThen
          fun top₂ r hfree₂ hstay₂ hr => h top₂ hdf r.1 r.2 hr hfree₂ (hstay₂ hdf (hstay₁ hdf hhdf))
    exact (openLower_returns hfree hhdf name attr).andThen hlower
  | multi name terminator attr => exact h.set hfree hhdf name _ attr _ _ rfl (multiLoop_suffix ..)

/-- `_hdf_read_string` returns, with a rest of the text. -/
theorem readString_level_returns {top : HdfNode} {hdf : HdfPtr} {str : List UInt8} (h : LinkFree top)
    (hhdf : (top.find hdf).isSome) (hlines : NoLinkLine ignore path str) (lineno : ℕ) :
    Returns top (fun links => readString links ignore path top hdf str lineno)
      fun _ r => r.1 <:+ str := by
  induction hlen : str.length using Nat.strong_induction_on generalizing top hdf str lineno with
  | _ len ih =>
    subst hlen
    by_cases hnil : str = []
    · subst hnil
      refine (Returns.ok h fun a ha => ?_).congr fun links => readString_nil ..
      cases ha
      exact List.suffix_refl _
    · have hlt := length_copyLineAdvance_lt hnil
      have hrest := copyLineAdvance_suffix str
      -- The loop goes on with a shorter text, in a dataset without links.
      have hagain : ReturnsFrom (fun links => readString links ignore path) (copyLineAdvance str).2 := by
        intro top' hdf' str' lineno' hsuffix hfree hhdf'
        refine (ih str'.length (hsuffix.length_le.trans_lt hlt) hfree hhdf'
          (fun t ht => hlines t (ht.trans (hsuffix.trans hrest))) lineno' rfl).imp fun _ r hr => ?_
        exact hr.trans hsuffix
      cases hparse : parseLine ignore path (lineno + 1) (copyLineAdvance str).1 with
      | error stop =>
        obtain rfl := parseLine_error hparse
        refine Returns.overrun.congr fun links => ?_
        rw [readString_eq, readStep, if_neg hnil, hparse]
        rfl
      | ok line =>
        have hline := hagain.execLine h hhdf (lineno + 1) fun name dest attr heq =>
          hlines str (List.suffix_refl _) (lineno + 1) name dest attr (heq ▸ hparse)
        refine (hline.imp fun _ r hr => hr.trans hrest).congr fun links => ?_
        rw [readString_eq, readStep, if_neg hnil, hparse]
        rfl

end

/-- A text without a link line, read into a dataset without links: the reader comes to the end of the text,
to an error, or behind the end of a line, and what it leaves has no links either. -/
theorem readString_returns {top : HdfNode} (h : LinkFree top) {ignore : Bool} {str : List UInt8}
    (hlines : NoLinkLine ignore (ascii "<string>") str) :
    ∃ x, (∀ links, hdfReadString links ignore top str = x) ∧ x ≠ .error .endless ∧
      ∀ top' r, x = .ok (top', r) → LinkFree top' := by
  have hhdf : (top.find []).isSome := rfl
  obtain ⟨y, hy, hne, hr⟩ := (readString_level_returns h hhdf hlines 0).andThen
    (f := fun _ top _ => (.ok (top, .ok ()) : HdfRun Unit)) (Q := fun _ _ => True)
    fun top' _ hfree _ _ => Returns.ok hfree fun _ _ => trivial
  exact ⟨y, hy, hne, fun top' r heq => (hr top' r heq).1⟩

theorem readString_returns_sample :
    LinkFree hdfInit ∧ NoLinkLine false (ascii "<string>") [97, 61, 49, 10] ∧
      ∃ x, (∀ links, hdfReadString links false hdfInit [97, 61, 49, 10] = x) ∧ x ≠ .error .endless ∧
        ∀ top' r, x = .ok (top', r) → LinkFree top' := by
  have hfree : LinkFree hdfInit := ⟨rfl, trivial⟩
  have hlines : NoLinkLine false (ascii "<string>") [97, 61, 49, 10] := by
    intro t ht lineno name dest attr h
    rw [← List.mem_tails] at ht
    simp only [List.tails, List.mem_cons, List.not_mem_nil, or_false] at ht
    rcases ht with rfl | rfl | rfl | rfl | rfl <;> cases h
  exact ⟨hfree, hlines, readString_returns hfree hlines⟩

/-! ## Reading without an end -/

theorem head_components {name : List UInt8} (hne : name ≠ []) (hdot : name.head? ≠ some 46) :
    (components name).head? ≠ some [] := by
  obtain ⟨c, name, rfl⟩ := List.exists_cons_of_ne_nil hne
  have hc : ¬(c == 46) = true := fun h => hdot (by rw [List.head?_cons, eq_of_beq h])
  rw [components, List.splitOn_cons_eq_if_modifyHead, if_neg hc]
  cases hparts : name.splitOn 46 with
  | nil => exact absurd hparts (List.splitOn_ne_nil _ _)
  | cons first rest => simp

/-- Once the top is a link, `_set_value` of a name starts again with a longer name each time. -/
theorem setLink_endless {top : HdfNode} {dest : List UInt8} (htop : top.data.value = .link dest)
    (hne : dest ≠ []) (hdot : dest.head? ≠ some 46) (value : HdfValue) (attr : HdfAttrs) (links : ℕ)
    {name : List UInt8} (hname : name ≠ []) (hhead : name.head? ≠ some 46) :
    setLink top value attr links name = .error .endless := by
  induction links generalizing name with
  | zero => rfl
  | succ links ih =>
    rw [setLink, setCall, if_neg hname, if_neg (head_components hname hhead), find_nil, Option.bind_some,
      htop]
    refine ih (by simp) ?_
    rwa [List.head?_append_of_ne_nil _ hne]

theorem parseRest_link {path : List UInt8} {lineno : ℕ} {cut buf name : List UInt8} {attr : HdfAttrs}
    {dest : List UInt8} (h : dest.head? ≠ some 61) :
    parseRest path lineno cut buf name attr (58 :: dest) = .link name (strip dest) attr := by
  cases dest with
  | nil => rfl
  | cons c dest =>
    unfold parseRest
    split
    · next heq => cases heq
    · next heq =>
      cases heq
      exact absurd rfl h
    · next heq =>
      cases heq
      rfl
    · next heq => cases heq
    · next heq => cases heq
    · next hlink _ _ => exact absurd rfl (hlink _)

/-- A link line without a name, and any line that sets a value behind it: no number of calls is enough for
the reader, whatever dataset it reads into and whatever follows. -/
theorem readString_endless {dest name value : List UInt8} (hdest : 10 ∉ dest) (hcopy : dest.head? ≠ some 61)
    (hne : strip dest ≠ []) (hdot : (strip dest).head? ≠ some 46) (hname : NameOk name)
    (hvalue : 10 ∉ value) (links : ℕ) (ignore : Bool) (top : HdfNode) (rest : List UInt8) :
    hdfReadString links ignore top (58 :: dest ++ 10 :: (name ++ 61 :: value ++ 10 :: rest)) =
      .error .endless := by
  have hlink : parseLine ignore (ascii "<string>") 1 (58 :: dest) = .ok (.link [] (strip dest) []) := by
    have hskip : skipWs (58 :: dest) = 58 :: dest := rfl
    have hdrop : (58 :: dest).dropWhile isNameChar = 58 :: dest := rfl
    have hinclude : ¬(ascii "#include " <+: 58 :: dest ∧ ¬ignore = true) := by
      rintro ⟨⟨rest, hrest⟩, -⟩
      cases hrest
    unfold parseLine
    simp only [hskip, hdrop]
    rw [if_neg hinclude]
    exact congrArg Except.ok (parseRest_link hcopy)
  have hassign : parseLine ignore (ascii "<string>") 2 (name ++ 61 :: value) =
      .ok (.assign name (strip value) []) := by
    have hskip : skipWs (61 :: value) = 61 :: value := rfl
    have hparse : parseLine ignore (ascii "<string>") 2 ([] ++ (name ++ 61 :: value)) = _ :=
      parseLine_name (by simp) hname (by simp; decide) 2
    rw [List.nil_append, hskip, if_neg (by simp)] at hparse
    rw [hparse, parseRest]
  have hline : 10 ∉ name ++ 61 :: value := by
    simp [newline_not_mem_name hname, hvalue]
  have hhead : name.head? ≠ some 46 := fun h => (hname.2 46 (List.mem_of_mem_head? h)).2 rfl
  -- The first line makes the top a link.
  have htop : setValue links top [] [] (.link (strip dest)) [] =
      .ok (top.update .empty (·.assign (.link (strip dest)) []) [], .ok []) := rfl
  -- The second one follows it.
  have hset : setValue links (top.update .empty (·.assign (.link (strip dest)) []) []) [] name
      (.value (strip value)) [] = .error .endless := by
    have hlink : (top.update .empty (·.assign (.link (strip dest)) []) []).data.value =
        .link (strip dest) := rfl
    rw [setValue, setCall, if_neg hname.1, if_neg (head_components hname.1 hhead)]
    refine setLink_endless hlink hne hdot _ _ links (by simp) ?_
    rwa [List.head?_append_of_ne_nil _ hne]
  rw [hdfReadString, readString_line (by simp [hdest]), hlink]
  simp only [Except.bind, execLine, htop, HdfRun.andThen]
  rw [readString_line hline, hassign]
  simp only [Except.bind, execLine, hset, HdfRun.andThen]

theorem readString_endless_sample :
    NameOk [98] ∧
      hdfReadString 1000 false hdfInit (58 :: [97] ++ 10 :: ([98] ++ 61 :: [49] ++ 10 :: [])) =
        .error .endless := by
  have hname : NameOk [98] := ⟨by simp, by simp; decide⟩
  have hdest : strip [97] = [97] := rfl
  refine ⟨hname, readString_endless (by simp) (by simp) ?_ ?_ hname (by simp) 1000 false hdfInit []⟩
  · simp [hdest]
  · simp [hdest]

end Moc
