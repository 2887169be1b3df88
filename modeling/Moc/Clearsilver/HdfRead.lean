import Moc.Clearsilver.HdfText

/-!
# The loop of the reader

`_hdf_read_string` calls itself for a level of children, and both loops go on in one text. Every line and
every piece of a value takes something of the text, so that the text alone bounds the calls
(`readString_eq`): with no link to follow, the reader returns.
-/

open CText

namespace Moc

variable {links : ℕ} {ignore : Bool} {path : List UInt8}

theorem copyLineAdvance_append {line : List UInt8} (h : 10 ∉ line) (rest : List UInt8) :
    copyLineAdvance (line ++ 10 :: rest) = (line, rest) := by
  have hall : ∀ c ∈ line, decide (c ≠ 10) = true := fun c hc => by
    rw [decide_eq_true_eq]
    rintro rfl
    exact h hc
  rw [copyLineAdvance, List.takeWhile_append_of_pos hall, List.dropWhile_append_of_pos hall]
  simp

theorem length_copyLineAdvance_lt {str : List UInt8} (h : str ≠ []) :
    (copyLineAdvance str).2.length < str.length := by
  have hle : (str.dropWhile (· ≠ 10)).length ≤ str.length := (List.dropWhile_sublist _).length_le
  have hpos := List.length_pos_of_ne_nil h
  rw [copyLineAdvance, List.length_tail]
  omega

theorem length_multiLoop_le (value : List UInt8) (fuel mmax : ℕ) (m str : List UInt8) (lineno : ℕ) :
    (multiLoop value fuel mmax m str lineno).2.1.length ≤ str.length := by
  induction fuel generalizing mmax m str lineno with
  | zero => exact le_refl _
  | succ fuel ih =>
    have hlen : (copyLine (mmax - m.length - 1) str).2.length ≤ str.length := by
      have happend := congrArg List.length (copyLine_append (mmax - m.length - 1) str)
      rw [List.length_append] at happend
      omega
    simp only [multiLoop]
    split_ifs
    · exact hlen
    · exact hlen
    · exact (ih _ _ _ _).trans hlen
    · exact (ih _ _ _ _).trans hlen

/-- The reader leaves a rest of the text. -/
def Shortens (again : HdfReader) : Prop :=
  ∀ top hdf str lineno top' r, again top hdf str lineno = .ok (top', .ok r) → r.1.length ≤ str.length

theorem Shortens.readStep {again : HdfReader} (h : Shortens again) :
    Shortens (readStep links ignore path again) := by
  intro top hdf str lineno top' r hrun
  unfold Moc.readStep at hrun
  split_ifs at hrun with hstr
  · cases hrun
    exact Nat.zero_le _
  · have hlt := length_copyLineAdvance_lt hstr
    have hset : ∀ {name : List UInt8} {value : HdfValue} {attr : HdfAttrs} {str' : List UInt8}
        {lineno' : ℕ}, str'.length < str.length →
        ((setValue links top hdf name value attr).andThen fun top _ => again top hdf str' lineno') =
          .ok (top', .ok r) → r.1.length ≤ str.length := by
      intro name value attr str' lineno' hlt hrun
      obtain ⟨top₁, node, -, hagain⟩ := HdfRun.andThen_eq_ok.mp hrun
      exact (h _ _ _ _ _ _ hagain).trans hlt.le
    obtain ⟨line, -, hline⟩ := bind_eq_ok_iff.mp hrun
    cases line with
    | blank => exact (h _ _ _ _ _ _ hline).trans hlt.le
    | up =>
      cases hline
      exact hlt.le
    | bad err => cases hline
    | assign name value attr => exact hset hlt hline
    | copy name src attr =>
      obtain ⟨value, -, hvalue⟩ := bind_eq_ok_iff.mp hline
      exact hset hlt hvalue
    | link name dest attr => exact hset hlt hline
    | deeper name attr =>
      rw [execLine] at hline
      obtain ⟨top₁, lower, -, hlower⟩ := HdfRun.andThen_eq_ok.mp hline
      obtain ⟨top₂, r₂, hin, hout⟩ := HdfRun.andThen_eq_ok.mp hlower
      exact ((h _ _ _ _ _ _ hout).trans (h _ _ _ _ _ _ hin)).trans hlt.le
    | multi name terminator attr =>
      exact hset ((length_multiLoop_le _ _ _ _ _ _).trans_lt hlt) hline

theorem shortens_readLevel (fuel : ℕ) : Shortens (readLevel links ignore path fuel) := by
  induction fuel with
  | zero =>
    intro top hdf str lineno top' r h
    cases h
  | succ fuel ih => exact ih.readStep

/-- The loop asks for shorter texts only. -/
theorem readStep_congr {again again' : HdfReader} (hshort : Shortens again) {str : List UInt8}
    (h : ∀ top hdf str' lineno, str'.length < str.length →
      again top hdf str' lineno = again' top hdf str' lineno)
    (top : HdfNode) (hdf : HdfPtr) (lineno : ℕ) :
    readStep links ignore path again top hdf str lineno =
      readStep links ignore path again' top hdf str lineno := by
  unfold readStep
  split_ifs with hstr
  · rfl
  · have hlt := length_copyLineAdvance_lt hstr
    have hset : ∀ (name : List UInt8) (value : HdfValue) (attr : HdfAttrs) (str' : List UInt8)
        (lineno' : ℕ), str'.length < str.length →
        ((setValue links top hdf name value attr).andThen fun top _ => again top hdf str' lineno') =
          (setValue links top hdf name value attr).andThen fun top _ => again' top hdf str' lineno' := by
      intro name value attr str' lineno' hlt
      simp only [h _ _ _ _ hlt]
    refine congrArg (Except.bind _) (funext fun line => ?_)
    cases line with
    | blank => exact h _ _ _ _ hlt
    | up => rfl
    | bad err => rfl
    | assign name value attr => exact hset _ _ _ _ _ hlt
    | copy name src attr => exact congrArg _ (funext fun value => hset _ _ _ _ _ hlt)
    | link name dest attr => exact hset _ _ _ _ _ hlt
    | deeper name attr =>
      rw [execLine, execLine]
      refine congrArg (HdfRun.andThen _) (funext fun top => funext fun lower => ?_)
      rw [← h _ _ _ _ hlt]
      cases hin : again top lower (copyLineAdvance str).2 (lineno + 1) with
      | error stop => rfl
      | ok r =>
        obtain ⟨top', r⟩ := r
        cases r with
        | error err => rfl
        | ok r => exact h _ _ _ _ ((hshort _ _ _ _ _ _ hin).trans_lt hlt)
    | multi name terminator attr => exact hset _ _ _ _ _ ((length_multiLoop_le _ _ _ _ _ _).trans_lt hlt)

/-- More fuel than characters is enough. -/
theorem readLevel_fuel {fuel : ℕ} {str : List UInt8} (h : str.length < fuel) (top : HdfNode)
    (hdf : HdfPtr) (lineno : ℕ) :
    readLevel links ignore path fuel top hdf str lineno =
      readString links ignore path top hdf str lineno := by
  have hind : ∀ n (str : List UInt8) fuel fuel' top hdf lineno, str.length < n → str.length < fuel →
      str.length < fuel' → readLevel links ignore path fuel top hdf str lineno =
        readLevel links ignore path fuel' top hdf str lineno := by
    intro n
    induction n with
    | zero => exact fun _ _ _ _ _ _ h => absurd h (Nat.not_lt_zero _)
    | succ n ih =>
      intro str fuel fuel' top hdf lineno hn hfuel hfuel'
      obtain ⟨fuel, rfl⟩ := Nat.exists_eq_add_one_of_ne_zero (Nat.ne_zero_of_lt hfuel)
      obtain ⟨fuel', rfl⟩ := Nat.exists_eq_add_one_of_ne_zero (Nat.ne_zero_of_lt hfuel')
      refine readStep_congr (shortens_readLevel fuel) (fun top hdf str' lineno hlt => ?_) top hdf lineno
      exact ih str' fuel fuel' top hdf lineno (by omega) (by omega) (by omega)
  exact hind _ _ _ _ _ _ _ (Nat.lt_succ_self _) h (Nat.lt_succ_self _)

/-- `_hdf_read_string` as its own loop. -/
theorem readString_eq (top : HdfNode) (hdf : HdfPtr) (str : List UInt8) (lineno : ℕ) :
    readString links ignore path top hdf str lineno =
      readStep links ignore path (readString links ignore path) top hdf str lineno := by
  refine readStep_congr (shortens_readLevel _) (fun top hdf str' lineno hlt => ?_) top hdf lineno
  exact readLevel_fuel hlt top hdf lineno

/-- The next line. -/
theorem readString_line {line : List UInt8} (h : 10 ∉ line) (top : HdfNode) (hdf : HdfPtr)
    (str : List UInt8) (lineno : ℕ) :
    readString links ignore path top hdf (line ++ 10 :: str) lineno =
      (parseLine ignore path (lineno + 1) line).bind
        (execLine links (readString links ignore path) top hdf str (lineno + 1)) := by
  rw [readString_eq, readStep, if_neg (by simp), copyLineAdvance_append h]

theorem readString_nil (top : HdfNode) (hdf : HdfPtr) (lineno : ℕ) :
    readString links ignore path top hdf [] lineno = .ok (top, .ok ([], lineno)) := rfl

end Moc
