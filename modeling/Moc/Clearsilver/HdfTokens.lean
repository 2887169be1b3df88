import Moc.Clearsilver.HdfRead

/-!
# Attributes and values of several lines

What `hdf_dump_cb` writes of the attributes and of a value that does not fit in a line, and what
`parse_attr` and the loop for `<<` read of it. A quoted value is read back exactly, whatever its
characters. An attribute with the value `1` is written as its bare key, which is read as the empty value.
A value of several lines comes back unless the loop meets the terminator inside it.
-/

open CText Decimal

namespace Moc

/-! ## Quoting -/

theorem isDigit_octal (c : UInt8) : isDigit (48 + c / 64) = true ∧ isDigit (48 + c / 8 % 8) = true ∧
    isDigit (48 + c % 8) = true := by
  have hc := c.toNat_lt
  simp only [isDigit, Bool.and_eq_true, decide_eq_true_eq, UInt8.le_iff_toNat_le, UInt8.toNat_add,
    UInt8.toNat_div, UInt8.toNat_mod, UInt8.reduceToNat]
  omega

theorem octal_octal (c : UInt8) (s : List UInt8) :
    octal ((48 + c / 64) :: (48 + c / 8 % 8) :: (48 + c % 8) :: s) = (c, s) := by
  obtain ⟨-, h₁, h₀⟩ := isDigit_octal c
  rw [octal, if_pos h₁, if_pos h₀]
  refine congrArg (·, s) (UInt8.toNat_inj.mp ?_)
  have hc := c.toNat_lt
  simp only [UInt8.toNat_add, UInt8.toNat_sub, UInt8.toNat_mul, UInt8.toNat_div, UInt8.toNat_mod,
    UInt8.reduceToNat]
  omega

/-- One character and the loop behind it. -/
theorem quotedLoop_reprChar (fuel : ℕ) (c : UInt8) (s : List UInt8) :
    quotedLoop (fuel + 1) (reprChar c ++ s) =
      (quotedLoop fuel s).map (Option.map fun r => (c :: r.1, r.2)) := by
  unfold reprChar
  split_ifs with hprint hn ht hr hq
  · rw [List.singleton_append, quotedLoop, if_neg hprint.2.1, if_neg hprint.2.2]
    rfl
  · rw [hn]
    rfl
  · rw [ht]
    rfl
  · rw [hr]
    rfl
  · have hdigit : isDigit c = false := by
      rcases hq with rfl | rfl <;> rfl
    have hself : unescape c = c := by
      rcases hq with rfl | rfl <;> rfl
    rw [List.cons_append, List.singleton_append, quotedLoop]
    simp [hdigit, hself]
    rfl
  · simp only [List.cons_append, List.nil_append]
    rw [quotedLoop]
    simp [(isDigit_octal c).1, octal_octal]
    rfl

/-- Every text is read back from its quoted form. -/
theorem quotedLoop_reprString {fuel : ℕ} {s : List UInt8} (h : s.length < fuel) (rest : List UInt8) :
    quotedLoop fuel (s.flatMap reprChar ++ 34 :: rest) = .ok (some (s, rest)) := by
  induction s generalizing fuel with
  | nil =>
    obtain ⟨fuel, rfl⟩ := Nat.exists_eq_add_one_of_ne_zero (Nat.ne_zero_of_lt h)
    rfl
  | cons c s ih =>
    obtain ⟨fuel, rfl⟩ := Nat.exists_eq_add_one_of_ne_zero (Nat.ne_zero_of_lt h)
    rw [List.length_cons] at h
    rw [List.flatMap_cons, List.append_assoc, quotedLoop_reprChar, ih (by omega)]
    rfl

/-! ## Attributes -/

/-- The value of an attribute after writing and reading. -/
def rereadAttr (a : List UInt8 × List UInt8) : List UInt8 × List UInt8 :=
  (a.1, if a.2 = ascii "1" then [] else a.2)

/-- An attribute whose key the reader takes for one; its value is a string. -/
def AttrOk (a : List UInt8 × List UInt8) : Prop := a.1 ≠ [] ∧ (∀ c ∈ a.1, isAlnum c = true) ∧ 0 ∉ a.2

theorem length_le_flatMap_reprChar (s : List UInt8) : s.length ≤ (s.flatMap reprChar).length := by
  induction s with
  | nil => exact le_refl _
  | cons c s ih =>
    have hone : 1 ≤ (reprChar c).length := by
      unfold reprChar
      split_ifs <;> simp
    rw [List.flatMap_cons, List.length_append, List.length_cons]
    omega

/-- The value of an attribute as it was written. -/
theorem attrValue_dumpAttr {a : List UInt8 × List UInt8} (h : AttrOk a) {c : UInt8} (hc : c ≠ 61)
    (rest : List UInt8) : ∃ v, dumpAttr a = a.1 ++ v ∧ (∀ b ∈ v.head?, isAlnum b = false ∧ isSpace b = false) ∧
      attrValue (v ++ c :: rest) = .ok (some ((rereadAttr a).2, c :: rest)) := by
  obtain ⟨-, -, hnul⟩ := h
  unfold dumpAttr rereadAttr
  split_ifs with hone
  · refine ⟨[], (List.append_nil _).symm, by simp, ?_⟩
    rw [List.nil_append, attrValue, if_neg (by simpa using hc)]
  · refine ⟨_, rfl, by simp; decide, ?_⟩
    have hlen : a.2.length < (reprString a.2 ++ c :: rest).length := by
      have hle := length_le_flatMap_reprChar a.2
      rw [reprString, List.cons_append, List.length_cons, List.length_append, List.length_append]
      omega
    have hquoted := quotedLoop_reprString hlen (c :: rest)
    have hvalue : a.2.takeWhile (· ≠ 0) = a.2 := List.takeWhile_eq_self_iff.mpr fun b hb => by
      rw [decide_eq_true_eq]
      rintro rfl
      exact hnul hb
    rw [List.cons_append, attrValue, List.head?_cons, if_pos rfl, List.tail_cons]
    have hskip : skipWs (reprString a.2 ++ c :: rest) = reprString a.2 ++ c :: rest :=
      skipWs_of_head (by simp [reprString]; decide)
    have htail : (reprString a.2 ++ c :: rest).tail = a.2.flatMap reprChar ++ 34 :: c :: rest := by
      simp [reprString]
    have hhead : (reprString a.2 ++ c :: rest).head? = some 34 := rfl
    rw [hskip]
    simp only [hhead, if_true, htail, hquoted, bind, Except.bind, Option.map_some, hvalue]
    rfl

theorem not_space_of_alnum {c : UInt8} (h : isAlnum c = true) : isSpace c = false ∧ c ≠ 93 ∧ c ≠ 44 := by
  simp only [isAlnum, isDigit, isSpace, Bool.or_eq_true, Bool.and_eq_true, decide_eq_true_eq,
    Bool.or_eq_false_iff, Bool.and_eq_false_iff, decide_eq_false_iff_not, ne_eq, UInt8.le_iff_toNat_le,
    ← UInt8.toNat_inj, UInt8.reduceToNat] at h ⊢
  omega

/-- One attribute and the loop behind it. -/
theorem attrLoop_dumpAttr {a : List UInt8 × List UInt8} (h : AttrOk a) (fuel : ℕ) {c : UInt8}
    (hc : c = 44 ∨ c = 93) (rest : List UInt8) :
    attrLoop (fuel + 1) (dumpAttr a ++ c :: rest) =
      (attrLoop fuel (if c = 44 then skipWs rest else c :: rest)).map
        (Option.map fun r => (rereadAttr a :: r.1, r.2)) := by
  have hc' : c ≠ 61 := by rcases hc with rfl | rfl <;> decide
  have hspace : isSpace c = false := by rcases hc with rfl | rfl <;> rfl
  have halnum : isAlnum c = false := by rcases hc with rfl | rfl <;> rfl
  obtain ⟨v, hdump, hhead, hvalue⟩ := attrValue_dumpAttr h hc' rest
  obtain ⟨hne, hkey, -⟩ := h
  obtain ⟨k, key, hk⟩ := List.exists_cons_of_ne_nil hne
  have hk93 : k ≠ 93 := (not_space_of_alnum (hkey k (hk ▸ List.mem_cons_self))).2.1
  have hbehind : ∀ b ∈ (v ++ c :: rest).head?, isAlnum b = false ∧ isSpace b = false := by
    cases v with
    | nil => simpa using ⟨halnum, hspace⟩
    | cons b v => exact hhead
  have htake : (a.1 ++ (v ++ c :: rest)).takeWhile isAlnum = a.1 :=
    takeWhile_append_head hkey fun b hb => (hbehind b hb).1
  have hdrop : (a.1 ++ (v ++ c :: rest)).dropWhile isAlnum = v ++ c :: rest :=
    dropWhile_append_head hkey fun b hb => (hbehind b hb).1
  have hskip : skipWs (v ++ c :: rest) = v ++ c :: rest := skipWs_of_head fun b hb => (hbehind b hb).2
  rw [hdump, List.append_assoc, attrLoop, if_neg (by simp [hk]), if_neg (by simp [hk, hk93])]
  dsimp only
  rw [htake, hdrop, if_neg (by simp [hne]), hskip, hvalue]
  simp only [bind, Except.bind]
  rw [skipWs_of_head (by simpa using hspace), List.head?_cons, List.tail_cons]
  simp only [Option.some.injEq]
  rfl

/-- `parse_attr` on what `hdf_dump_cb` writes. -/
theorem attrLoop_dumpAttrs {attr : HdfAttrs} (h : ∀ a ∈ attr, AttrOk a) {fuel : ℕ}
    (hfuel : attr.length < fuel) (rest : List UInt8) :
    attrLoop fuel ((ascii ", ").intercalate (attr.map dumpAttr) ++ 93 :: rest) =
      .ok (some (attr.map rereadAttr, rest)) := by
  induction attr generalizing fuel with
  | nil =>
    obtain ⟨fuel, rfl⟩ := Nat.exists_eq_add_one_of_ne_zero (Nat.ne_zero_of_lt hfuel)
    rfl
  | cons a attr ih =>
    obtain ⟨fuel, rfl⟩ := Nat.exists_eq_add_one_of_ne_zero (Nat.ne_zero_of_lt hfuel)
    obtain ⟨ha, hattr⟩ := List.forall_mem_cons.mp h
    rw [List.length_cons] at hfuel
    cases attr with
    | nil =>
      obtain ⟨fuel, rfl⟩ := Nat.exists_eq_add_one_of_ne_zero (show fuel ≠ 0 by omega)
      simp only [List.map_cons, List.map_nil, List.intercalate_singleton]
      rw [attrLoop_dumpAttr ha _ (Or.inr rfl), if_neg (by decide)]
      rfl
    | cons b attr =>
      have hb : AttrOk b := hattr b List.mem_cons_self
      obtain ⟨k, key, hk⟩ := List.exists_cons_of_ne_nil hb.1
      have hspace := (not_space_of_alnum (hb.2.1 k (hk ▸ List.mem_cons_self))).1
      obtain ⟨v, hdump, -⟩ := attrValue_dumpAttr hb (c := 93) (by decide) rest
      -- The next key follows the comma and a space.
      have hnext : skipWs (32 :: ((ascii ", ").intercalate ((b :: attr).map dumpAttr) ++ 93 :: rest)) =
          (ascii ", ").intercalate ((b :: attr).map dumpAttr) ++ 93 :: rest := by
        rw [skipWs, List.dropWhile_cons_of_pos (by rfl), List.map_cons, hdump, hk, List.cons_append,
          List.intercalate_cons_cons_left, List.cons_append]
        exact List.dropWhile_cons_of_neg (by simp [hspace])
      have hcomma : (ascii ", ").intercalate ((a :: b :: attr).map dumpAttr) ++ 93 :: rest =
          dumpAttr a ++ 44 :: 32 :: ((ascii ", ").intercalate ((b :: attr).map dumpAttr) ++ 93 :: rest) := by
        rw [List.map_cons, List.map_cons, List.intercalate_cons_cons, List.append_assoc,
          List.append_assoc]
        rfl
      rw [hcomma, attrLoop_dumpAttr ha _ (Or.inl rfl), if_pos rfl, hnext, ih hattr (by omega)]
      rfl

theorem length_le_dumpAttrs {attr : HdfAttrs} (h : ∀ a ∈ attr, AttrOk a) :
    attr.length ≤ ((ascii ", ").intercalate (attr.map dumpAttr)).length := by
  induction attr with
  | nil => exact Nat.zero_le _
  | cons a attr ih =>
    obtain ⟨ha, hattr⟩ := List.forall_mem_cons.mp h
    have hone : 1 ≤ (dumpAttr a).length := by
      have hkey := List.length_pos_of_ne_nil ha.1
      unfold dumpAttr
      split_ifs
      · exact hkey
      · rw [List.length_append]
        omega
    cases attr with
    | nil => simpa using hone
    | cons b attr =>
      have hrest := ih hattr
      rw [List.map_cons] at hrest ⊢
      rw [List.map_cons, List.intercalate_cons_cons, List.length_append, List.length_append,
        List.length_cons]
      omega

theorem parseAttr_dumpAttrs {attr : HdfAttrs} (h : ∀ a ∈ attr, AttrOk a) (rest : List UInt8) :
    parseAttr ((ascii ", ").intercalate (attr.map dumpAttr) ++ 93 :: rest) =
      .ok (.ok (attr.map rereadAttr, rest)) := by
  have hlen := length_le_dumpAttrs h
  rw [parseAttr, attrLoop_dumpAttrs h (by rw [List.length_append]; omega)]
  rfl

/-! ## Values of several lines -/

/-- The value with a newline at its end. -/
def endLine (value : List UInt8) : List UInt8 :=
  if value.getLast? = some 10 then value else value ++ [10]

/-- The reader does not meet the terminator in the value. -/
def Unbroken (w value : List UInt8) : Prop := (readMulti w value 0).1 = value

/-- A newline at the end of a text ends every copy out of it. -/
theorem copyLine_append_of_newline {s : List UInt8} (hs : s.getLast? = some 10) (room : ℕ)
    (t : List UInt8) : copyLine room (s ++ t) = ((copyLine room s).1, (copyLine room s).2 ++ t) := by
  induction s generalizing room with
  | nil => cases hs
  | cons c s ih =>
    cases room with
    | zero => rfl
    | succ room =>
      rw [List.cons_append, copyLine, copyLine]
      split_ifs with hc
      · rfl
      · cases s with
        | nil =>
          rw [List.getLast?_singleton, Option.some.injEq] at hs
          exact absurd hs hc
        | cons c' s =>
          rw [List.getLast?_cons_cons] at hs
          simp only [ih hs]

/-- The line of the terminator. -/
theorem copyLine_terminator {w : List UInt8} (hw : 10 ∉ w) {room : ℕ} (hroom : w.length < room)
    (rest : List UInt8) : copyLine room (w ++ 10 :: rest) = (w ++ [10], rest) := by
  induction w generalizing room with
  | nil =>
    obtain ⟨room, rfl⟩ := Nat.exists_eq_add_one_of_ne_zero (Nat.ne_zero_of_lt hroom)
    rfl
  | cons c w ih =>
    obtain ⟨room, rfl⟩ := Nat.exists_eq_add_one_of_ne_zero (Nat.ne_zero_of_lt hroom)
    rw [List.mem_cons, not_or] at hw
    rw [List.length_cons] at hroom
    rw [List.cons_append, copyLine, if_neg (Ne.symm hw.1), ih hw.2 (by omega)]
    rfl

section
variable {w : List UInt8} {mmax : ℕ} {m v : List UInt8}

/-- The loop for `<<` over a text from a piece of it on. -/
theorem multiLoop_cons {p v' : List UInt8} (hp : p ≠ []) (fuel lineno : ℕ)
    (hcopy : copyLine (mmax - m.length - 1) v = (p, v')) :
    multiLoop w (fuel + 1) mmax m v lineno =
      if w <+: p ∧ (p.drop w.length).head?.any isSpace then (m, v', lineno + 1)
      else multiLoop w fuel
        (if (m ++ p).length + w.length + 10 > mmax then mmax + 128 else mmax) (m ++ p) v' (lineno + 1) := by
  simp only [multiLoop, hcopy]
  rw [if_neg hp]

/-- The buffer always has room for the line of the terminator. -/
theorem room_grows {p : List UInt8} (hw : w.length ≤ 118) (hroom : m.length + w.length + 10 ≤ mmax)
    (hp : p.length ≤ mmax - m.length - 1) :
    (m ++ p).length + w.length + 10 ≤
      if (m ++ p).length + w.length + 10 > mmax then mmax + 128 else mmax := by
  rw [List.length_append]
  split_ifs with h <;> omega

/-- The next piece of a value. -/
theorem exists_piece (hnil : v ≠ []) (hroom : m.length + 2 ≤ mmax) :
    ∃ p v', copyLine (mmax - m.length - 1) v = (p, v') ∧ p ++ v' = v ∧ p ≠ [] ∧
      p.length ≤ mmax - m.length - 1 := by
  obtain ⟨room, hroom'⟩ := Nat.exists_eq_add_one_of_ne_zero (show mmax - m.length - 1 ≠ 0 by omega)
  refine ⟨_, _, rfl, copyLine_append _ _, fun hp => ?_, length_copyLine_le _ _⟩
  rw [hroom'] at hp
  exact hnil (copyLine_eq_nil hp)

/-- A value that ends with a newline is read up to the line of the terminator exactly when it is read
whole without one. -/
theorem multiLoop_terminated (hw : 10 ∉ w) (hlen : w.length ≤ 118) (rest : List UInt8) {fuel fuel' : ℕ}
    (hv : v = [] ∨ v.getLast? = some 10) (hroom : m.length + w.length + 10 ≤ mmax)
    (hfuel : v.length < fuel) (hfuel' : v.length < fuel') (lineno lineno' : ℕ) :
    ((multiLoop w fuel mmax m v lineno).1 = m ++ v →
      ∃ n, multiLoop w fuel' mmax m (v ++ (w ++ 10 :: rest)) lineno' = (m ++ v, rest, n)) ∧
    ((multiLoop w fuel' mmax m (v ++ (w ++ 10 :: rest)) lineno').1 = m ++ v →
      (multiLoop w fuel mmax m v lineno).1 = m ++ v) := by
  induction fuel' generalizing fuel mmax m v lineno lineno' with
  | zero => exact absurd hfuel' (Nat.not_lt_zero _)
  | succ fuel' ih =>
    obtain ⟨fuel, rfl⟩ := Nat.exists_eq_add_one_of_ne_zero (Nat.ne_zero_of_lt hfuel)
    by_cases hnil : v = []
    · -- The terminator is next.
      subst hnil
      have hend := copyLine_terminator hw (show w.length < mmax - m.length - 1 by omega) rest
      have hstop : w <+: w ++ [10] ∧ ((w ++ [10]).drop w.length).head?.any isSpace := by
        rw [List.drop_left]
        exact ⟨List.prefix_append .., rfl⟩
      have hself : multiLoop w (fuel + 1) mmax m [] lineno = (m, [], lineno) := by
        obtain ⟨room, hroom'⟩ := Nat.exists_eq_add_one_of_ne_zero (show mmax - m.length - 1 ≠ 0 by omega)
        simp [multiLoop, hroom', copyLine]
      rw [List.nil_append, multiLoop_cons (by simp) _ _ hend, if_pos hstop, hself, List.append_nil]
      exact ⟨fun _ => ⟨_, rfl⟩, fun _ => rfl⟩
    · have hlast := hv.resolve_left hnil
      obtain ⟨p, v', hcopy, happend, hp, hple⟩ := exists_piece hnil (show m.length + 2 ≤ mmax by omega)
      have hcopy' := copyLine_append_of_newline hlast (mmax - m.length - 1) (w ++ 10 :: rest)
      rw [hcopy] at hcopy'
      rw [multiLoop_cons hp _ _ hcopy, multiLoop_cons hp _ _ hcopy']
      by_cases hstop : w <+: p ∧ (p.drop w.length).head?.any isSpace
      · -- Here the loop stops inside the value.
        rw [if_pos hstop, if_pos hstop]
        have hshort : m ≠ m ++ v := by simpa using Ne.symm hnil
        exact ⟨fun h => absurd h hshort, fun h => absurd h hshort⟩
      · rw [if_neg hstop, if_neg hstop]
        have hplen := List.length_pos_of_ne_nil hp
        have hvlen := congrArg List.length happend
        rw [List.length_append] at hvlen
        have hv' : v' = [] ∨ v'.getLast? = some 10 := by
          by_cases hv'' : v' = []
          · exact Or.inl hv''
          · rw [← happend, List.getLast?_append_of_ne_nil _ hv''] at hlast
            exact Or.inr hlast
        have hrest := ih hv' (room_grows hlen hroom hple) (show v'.length < fuel by omega) (by omega)
          (lineno + 1) (lineno' + 1)
        rwa [List.append_assoc, happend] at hrest

end

/-- A value of several lines is read back, with a newline at its end, exactly when the reader does not
meet the terminator in it. -/
theorem readMulti_written {w value : List UInt8} (hw : 10 ∉ w) (hlen : w.length ≤ 118)
    (rest : List UInt8) (lineno : ℕ) :
    (Unbroken w (endLine value) → ∃ n,
      readMulti w (endLine value ++ (w ++ 10 :: rest)) lineno = (endLine value, rest, n)) ∧
    ((readMulti w (endLine value ++ (w ++ 10 :: rest)) lineno).1 = endLine value →
      Unbroken w (endLine value)) := by
  have hlast : (endLine value).getLast? = some 10 := by
    unfold endLine
    split_ifs with h
    · exact h
    · simp
  have hroom : ([] : List UInt8).length + w.length + 10 ≤ 128 := by
    rw [List.length_nil]
    omega
  have hfuel : (endLine value).length < (endLine value ++ (w ++ 10 :: rest)).length + 1 := by
    rw [List.length_append]
    omega
  exact multiLoop_terminated hw hlen rest (Or.inr hlast) hroom (Nat.lt_succ_self _) hfuel 0 lineno

/-- A terminator that the value never has before white space is not met in it. -/
theorem unbroken_of_not_infix {w value : List UInt8}
    (h : ∀ c, isSpace c = true → ¬w ++ [c] <:+: value) : Unbroken w value := by
  have hind : ∀ fuel mmax m v lineno, v.length < fuel → m.length + 2 ≤ mmax →
      (∀ c, isSpace c = true → ¬w ++ [c] <:+: v) → (multiLoop w fuel mmax m v lineno).1 = m ++ v := by
    intro fuel
    induction fuel with
    | zero => exact fun _ _ _ _ h => absurd h (Nat.not_lt_zero _)
    | succ fuel ih =>
      intro mmax m v lineno hfuel hroom hv
      by_cases hnil : v = []
      · subst hnil
        obtain ⟨room, hroom'⟩ := Nat.exists_eq_add_one_of_ne_zero (show mmax - m.length - 1 ≠ 0 by omega)
        simp [multiLoop, hroom', copyLine]
      · obtain ⟨p, v', hcopy, happend, hp, hple⟩ := exists_piece hnil hroom
        have hgo : ¬(w <+: p ∧ (p.drop w.length).head?.any isSpace = true) := by
          rintro ⟨⟨t, rfl⟩, hspace⟩
          rw [List.drop_left] at hspace
          cases t with
          | nil => cases hspace
          | cons c t =>
            refine hv c hspace ⟨[], t ++ v', ?_⟩
            rw [← happend]
            simp
        have hplen := List.length_pos_of_ne_nil hp
        have hvlen := congrArg List.length happend
        rw [List.length_append] at hvlen
        have hmlen : (m ++ p).length = m.length + p.length := List.length_append
        rw [multiLoop_cons hp _ _ hcopy, if_neg hgo, ih _ _ _ _ (by omega) (by split_ifs <;> omega)
          fun c hc hin => hv c hc (happend ▸ hin.trans (List.suffix_append p v').isInfix), List.append_assoc,
          happend]
  have h := hind (value.length + 1) 128 [] value 0 (Nat.lt_succ_self _) (by simp) h
  exact h

end Moc
