import Moc.Lib.Decimal
import Mathlib.Data.List.AList

/-!
# Callbacks

`mcbk_find` and `mcbk_regist` of `client/mcbk.c`. A callback is registered for a module and a command,
and the table is keyed by one string made of both. `KeyedByPair` says that the table answers for the
pair; it does so exactly when no other pair that was registered makes the same string
(`keyedByPair_iff`).
-/

open Decimal

namespace Moc

/-- A C string. -/
abbrev CStr := {s : List UInt8 // 0 ∉ s}

/-- A `struct moc_cbk`; the callback is a function pointer. -/
structure MocCbk where
  ename : CStr
  cmd : CStr
  callback : ℕ
  deriving DecidableEq

/-- The table of callbacks, under C strings. -/
abbrev Cbkh := AList fun _ : CStr => MocCbk

/-- The C string in a buffer. -/
def cString (buf : List UInt8) : CStr :=
  ⟨buf.takeWhile (· ≠ 0), fun h => by simpa using List.mem_takeWhile_imp h⟩

/-- `snprintf(tok, sizeof(tok), "%s_%s", module, cmd)`, for a `tok` of 1024 bytes. -/
def mcbkTok (module cmd : CStr) : CStr := cString (snprintf 1024 (module.1 ++ 95 :: cmd.1))

/-- `mcbk_find` -/
def mcbkFind (cbkh : Cbkh) (module cmd : CStr) : Option MocCbk := cbkh.lookup (mcbkTok module cmd)

/-- `mcbk_regist`: `hash_remove` and then `hash_insert`. -/
def mcbkRegist (cbkh : Cbkh) (module cmd : CStr) (c : MocCbk) : Cbkh :=
  (cbkh.erase (mcbkTok module cmd)).insert (mcbkTok module cmd) c

/-- The arguments of `_moc_regist_callback`. -/
structure CbkReg where
  module : CStr
  cmd : CStr
  cmdcbk : ℕ
  deriving DecidableEq

/-- The `struct moc_cbk` that `_moc_regist_callback` makes. -/
def CbkReg.cbk (r : CbkReg) : MocCbk := ⟨r.module, r.cmd, r.cmdcbk⟩

/-- `_moc_regist_callback` -/
def mocRegistCallback (cbkh : Cbkh) (r : CbkReg) : Cbkh := mcbkRegist cbkh r.module r.cmd r.cbk

/-- The table after some registrations. -/
def registAll (regs : List CbkReg) : Cbkh := regs.foldl mocRegistCallback ∅

/-- The callback registered last among those that `p` selects. -/
def lastWhere (p : CbkReg → Prop) [DecidablePred p] (regs : List CbkReg) : Option MocCbk :=
  (regs.filter p).getLast?.map CbkReg.cbk

/-- The registration is one of the pair. -/
def CbkReg.IsFor (module cmd : CStr) (r : CbkReg) : Prop := r.module = module ∧ r.cmd = cmd

instance (module cmd : CStr) : DecidablePred (CbkReg.IsFor module cmd) := fun _ =>
  inferInstanceAs (Decidable (_ ∧ _))

/-- The registrations go to the same place in the table as the pair. -/
def CbkReg.Collides (module cmd : CStr) (r : CbkReg) : Prop :=
  mcbkTok r.module r.cmd = mcbkTok module cmd

instance (module cmd : CStr) : DecidablePred (CbkReg.Collides module cmd) := fun _ =>
  inferInstanceAs (Decidable (_ = _))

/-- After `regs`, the pair finds its own callback, and no registration of another pair changed what it
finds. -/
structure KeyedByPair (regs : List CbkReg) (module cmd : CStr) : Prop where
  find : mcbkFind (registAll regs) module cmd = lastWhere (CbkReg.IsFor module cmd) regs
  others : ∀ before r after, regs = before ++ r :: after → ¬r.IsFor module cmd →
    mcbkFind (registAll (before ++ [r])) module cmd = mcbkFind (registAll before) module cmd

/-! ## What is found -/

theorem lastWhere_append_singleton (p : CbkReg → Prop) [DecidablePred p] (regs : List CbkReg)
    (r : CbkReg) :
    lastWhere p (regs ++ [r]) = if p r then some r.cbk else lastWhere p regs := by
  unfold lastWhere
  split_ifs with h <;> simp [h]

/-- `mcbk_find` returns the callback registered last under its string. -/
theorem mcbkFind_registAll (regs : List CbkReg) (module cmd : CStr) :
    mcbkFind (registAll regs) module cmd = lastWhere (CbkReg.Collides module cmd) regs := by
  induction regs using List.reverseRecOn with
  | nil => rfl
  | append_singleton regs r ih =>
    have hlast : registAll (regs ++ [r]) = mocRegistCallback (registAll regs) r :=
      List.foldl_concat ..
    rw [hlast, lastWhere_append_singleton, ← ih, mcbkFind, mocRegistCallback, mcbkRegist]
    split_ifs with h
    · rw [CbkReg.Collides] at h
      rw [h, AList.lookup_insert]
    · rw [AList.lookup_insert_ne (Ne.symm h), AList.lookup_erase_ne (Ne.symm h), mcbkFind]

/-- A callback that is found for a selected registration has the names of one. -/
theorem lastWhere_isFor {regs : List CbkReg} {module cmd : CStr} {c : MocCbk}
    (h : lastWhere (CbkReg.IsFor module cmd) regs = some c) : c.ename = module ∧ c.cmd = cmd := by
  obtain ⟨r, hr, rfl⟩ := Option.map_eq_some_iff.mp h
  have hmem := List.mem_filter.mp (List.mem_of_getLast? hr)
  exact of_decide_eq_true hmem.2

theorem lastWhere_congr {p q : CbkReg → Prop} [DecidablePred p] [DecidablePred q]
    {regs : List CbkReg} (h : ∀ r ∈ regs, p r ↔ q r) : lastWhere p regs = lastWhere q regs := by
  have hfilter : regs.filter p = regs.filter q :=
    List.filter_congr fun r hr => decide_eq_decide.mpr (h r hr)
  rw [lastWhere, lastWhere, hfilter]

/-- A registration of the pair goes where the pair is looked up. -/
theorem CbkReg.IsFor.collides {module cmd : CStr} {r : CbkReg} (h : r.IsFor module cmd) :
    r.Collides module cmd := by
  rw [CbkReg.Collides, h.1, h.2]

/-- A registration of another pair changes what a pair finds exactly when the strings collide. -/
theorem isFor_of_keyedByPair {regs : List CbkReg} {module cmd : CStr}
    (h : KeyedByPair regs module cmd) {before after : List CbkReg} (hregs : regs = before ++ after) :
    ∀ r ∈ before, r.Collides module cmd → r.IsFor module cmd := by
  induction before using List.reverseRecOn generalizing after with
  | nil => simp
  | append_singleton before r ih =>
    have hbefore := ih (show regs = before ++ r :: after by simp [hregs])
    intro r' hr' hcol
    rcases List.mem_append.mp hr' with hmem | hmem
    · exact hbefore r' hmem hcol
    · obtain rfl := List.mem_singleton.mp hmem
      by_contra hne
      have hsame := h.others before r' after (by simp [hregs]) hne
      rw [mcbkFind_registAll, mcbkFind_registAll, lastWhere_append_singleton, if_pos hcol] at hsame
      -- What was found before is of the pair itself, and so is not what was registered.
      have hpair : lastWhere (CbkReg.IsFor module cmd) before = some r'.cbk := by
        rw [hsame]
        exact lastWhere_congr fun x hx => ⟨CbkReg.IsFor.collides, hbefore x hx⟩
      exact hne (lastWhere_isFor hpair)

/-- The table answers for a pair exactly when no other pair that was registered makes its string. -/
theorem keyedByPair_iff (regs : List CbkReg) (module cmd : CStr) :
    KeyedByPair regs module cmd ↔
      ∀ r ∈ regs, mcbkTok r.module r.cmd = mcbkTok module cmd → r.module = module ∧ r.cmd = cmd := by
  constructor
  · intro h r hr hcol
    exact isFor_of_keyedByPair h (List.append_nil regs).symm r hr hcol
  · intro h
    constructor
    · rw [mcbkFind_registAll]
      exact lastWhere_congr fun r hr => ⟨h r hr, CbkReg.IsFor.collides⟩
    · rintro before r after rfl hne
      have hcol : ¬r.Collides module cmd := fun hcol => hne (h r (by simp) hcol)
      rw [mcbkFind_registAll, mcbkFind_registAll, lastWhere_append_singleton, if_neg hcol]

/-- One registration that answers for another pair: of `a_b` and `c`, found under `a` and `b_c`. -/
theorem not_keyedByPair :
    ∃ r : CbkReg, ∃ module cmd : CStr, ¬r.IsFor module cmd ∧
      mcbkFind (registAll [r]) module cmd = some r.cbk ∧ ¬KeyedByPair [r] module cmd := by
  refine ⟨⟨⟨[97, 95, 98], by decide⟩, ⟨[99], by decide⟩, 1⟩, ⟨[97], by decide⟩,
    ⟨[98, 95, 99], by decide⟩, by decide, by decide, fun h => ?_⟩
  exact absurd h.find (by decide)

/-! ## Strings that do not collide -/

/-- What comes before a byte that stands for the end. -/
theorem takeWhile_ne_append {b : UInt8} {s : List UInt8} (h : b ∉ s) (t : List UInt8) :
    (s ++ b :: t).takeWhile (· ≠ b) = s := by
  rw [List.takeWhile_append_of_pos fun c hc => by simpa using ne_of_mem_of_not_mem hc h]
  simp

/-- A pair that fits the buffer is in it as a whole. -/
theorem mcbkTok_val {module cmd : CStr} (hfit : module.1.length + cmd.1.length < 1023) :
    (mcbkTok module cmd).1 = module.1 ++ 95 :: cmd.1 := by
  have hnul : 0 ∉ module.1 ++ 95 :: cmd.1 := by
    rw [List.mem_append, List.mem_cons]
    rintro (h | h | h)
    · exact module.2 h
    · exact absurd h (by decide)
    · exact cmd.2 h
  rw [mcbkTok, snprintf_of_lt (by simp; omega)]
  exact takeWhile_ne_append hnul []

/-- Pairs that fit the buffer and whose modules have no underscore make different strings. -/
theorem mcbkTok_inj {module module' cmd cmd' : CStr}
    (hfit : module.1.length + cmd.1.length < 1023) (hfit' : module'.1.length + cmd'.1.length < 1023)
    (hplain : 95 ∉ module.1) (hplain' : 95 ∉ module'.1)
    (h : mcbkTok module cmd = mcbkTok module' cmd') : module = module' ∧ cmd = cmd' := by
  have hval := congrArg Subtype.val h
  rw [mcbkTok_val hfit, mcbkTok_val hfit'] at hval
  have hmodule : module.1 = module'.1 := by
    rw [← takeWhile_ne_append hplain cmd.1, hval, takeWhile_ne_append hplain']
  rw [hmodule] at hval
  exact ⟨Subtype.ext hmodule, Subtype.ext (List.cons.inj (List.append_cancel_left hval)).2⟩

end Moc
