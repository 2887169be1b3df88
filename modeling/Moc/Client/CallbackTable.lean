import Moc.Clearsilver.StrTables
import Moc.Client.Callbacks

/-!
# Callbacks in their hash table

`Callbacks.lean` keeps the callbacks in a finite map. Here `mcbk_regist` and `mcbk_find` of
`client/mcbk.c` run on the hash table, whose values are the `struct moc_cbk` objects, numbered in the order
in which `_moc_regist_callback` makes them. `_moc_destroy` of `client/moc.c` destroys the objects in a walk
over the table. `cbkh_exact` says what is found, and which objects are ever destroyed.
-/

open Memory Runs

namespace Moc

/-- `mcbk_regist` of the object `c` under a string: `hash_remove`, then `hash_insert`. -/
def registOps (tok : CStr) (c : ℕ) (grow : Bool) : List (TableOp CStr ℕ) :=
  [.remove tok, .insert tok c grow]

/-- The calls of `_moc_regist_callback`, each with the outcome of `realloc`. -/
abbrev GrowReg := CbkReg × Bool

/-- The string of a registration. -/
def GrowReg.tok (r : GrowReg) : CStr := mcbkTok r.1.module r.1.cmd

/-- What some registrations do to the table. -/
def registTableOps (regs : List GrowReg) : List (TableOp CStr ℕ) :=
  regs.zipIdx.flatMap fun p => registOps p.1.tok p.2 p.1.2

/-- The loop of `_moc_destroy` over the callbacks: the objects in the order in which `mcbk_destroy` is given
them. -/
def mocDestroyCbks (cbkh : NeHash CStr ℕ) (fuel : ℕ) : Option (List ℕ) :=
  NeHash.walk (strFuncs Subtype.val) (fun _ => cbkh) (fun destroyed _ c => destroyed ++ [c]) fuel [] none

/-- The registration `i` is the last one of its string. -/
def LastOfTok (regs : List GrowReg) (i : ℕ) (tok : CStr) : Prop :=
  (∃ r, regs[i]? = some r ∧ r.tok = tok) ∧ ∀ j r, i < j → regs[j]? = some r → r.tok ≠ tok

/-- The objects under their strings. -/
def cbkMap (regs : List GrowReg) : AList fun _ : CStr => ℕ := (registTableOps regs).foldl TableOp.apply ∅

theorem registTableOps_append (regs : List GrowReg) (r : GrowReg) :
    registTableOps (regs ++ [r]) = registTableOps regs ++ registOps r.tok regs.length r.2 := by
  simp [registTableOps, List.zipIdx_append]

theorem cbkMap_append (regs : List GrowReg) (r : GrowReg) :
    cbkMap (regs ++ [r]) = ((cbkMap regs).erase r.tok).insert r.tok regs.length := by
  rw [cbkMap, registTableOps_append, List.foldl_append]
  rfl

/-- One insert for each registration. -/
theorem inserts_registTableOps (regs : List GrowReg) :
    inserts ((registTableOps regs).map TableOp.call) = regs.length := by
  induction regs using List.reverseRecOn with
  | nil => rfl
  | append_singleton regs r ih =>
    rw [registTableOps_append, List.map_append, inserts, List.countP_append, ← inserts, ih,
      List.length_append]
    rfl

theorem getElem?_append_eq_some {α : Type} {l : List α} {a b : α} {i : ℕ} :
    (l ++ [a])[i]? = some b ↔ l[i]? = some b ∨ i = l.length ∧ b = a := by
  obtain hlt | rfl | hgt := Nat.lt_trichotomy i l.length
  · rw [List.getElem?_append_left hlt, or_iff_left fun h => Nat.ne_of_lt hlt h.1]
  · simp [eq_comm]
  · simp only [List.getElem?_eq_none (show (l ++ [a]).length ≤ i by simp; omega),
      List.getElem?_eq_none (Nat.le_of_lt hgt), reduceCtorEq, false_or, false_iff]
    exact fun h => Nat.ne_of_gt hgt h.1

/-- Another string keeps its last registration. -/
theorem lastOfTok_append {regs : List GrowReg} {r : GrowReg} {i : ℕ} {tok : CStr} (htok : tok ≠ r.tok) :
    LastOfTok (regs ++ [r]) i tok ↔ LastOfTok regs i tok := by
  unfold LastOfTok
  simp only [getElem?_append_eq_some]
  constructor
  · rintro ⟨⟨r', hr' | ⟨-, rfl⟩, rfl⟩, hlast⟩
    · exact ⟨⟨r', hr', rfl⟩, fun j r'' hj hr'' => hlast j r'' hj (.inl hr'')⟩
    · exact absurd rfl htok
  · rintro ⟨⟨r', hr', rfl⟩, hlast⟩
    refine ⟨⟨r', .inl hr', rfl⟩, fun j r'' hj hr'' => ?_⟩
    obtain hr'' | ⟨-, rfl⟩ := hr''
    · exact hlast j r'' hj hr''
    · exact htok.symm

/-- The object under a string is that of its last registration. -/
theorem lookup_cbkMap (regs : List GrowReg) (tok : CStr) (i : ℕ) :
    (cbkMap regs).lookup tok = some i ↔ LastOfTok regs i tok := by
  induction regs using List.reverseRecOn with
  | nil => simp [LastOfTok, cbkMap, registTableOps]
  | append_singleton regs r ih =>
    rw [cbkMap_append]
    by_cases htok : tok = r.tok
    · rw [htok, AList.lookup_insert, Option.some.injEq, LastOfTok]
      simp only [getElem?_append_eq_some]
      constructor
      · rintro rfl
        refine ⟨⟨r, .inr ⟨rfl, rfl⟩, rfl⟩, fun j r' hj hr' => ?_⟩
        obtain hr' | ⟨rfl, -⟩ := hr'
        · have hlt := (List.getElem?_eq_some_iff.mp hr').1
          omega
        · omega
      · rintro ⟨⟨r', hr', -⟩, hlast⟩
        obtain hr' | ⟨rfl, -⟩ := hr'
        · have hlt := (List.getElem?_eq_some_iff.mp hr').1
          exact absurd rfl (hlast regs.length r hlt (.inr ⟨rfl, rfl⟩))
        · rfl
    · rw [AList.lookup_insert_ne htok, AList.lookup_erase_ne htok, ih, lastOfTok_append htok]

/-- The table of objects answers like the table of callbacks. -/
theorem lookup_cbkMap_eq (regs : List GrowReg) (tok : CStr) :
    (((cbkMap regs).lookup tok).bind fun i => (regs[i]?).map fun r => r.1.cbk) =
      (registAll (regs.map Prod.fst)).lookup tok := by
  induction regs using List.reverseRecOn with
  | nil => rfl
  | append_singleton regs r ih =>
    have hregist : registAll ((regs ++ [r]).map Prod.fst) =
        ((registAll (regs.map Prod.fst)).erase r.tok).insert r.tok r.1.cbk := by
      rw [List.map_append]
      exact List.foldl_concat ..
    rw [hregist, cbkMap_append]
    by_cases htok : tok = r.tok
    · rw [htok, AList.lookup_insert, AList.lookup_insert]
      simp
    · rw [AList.lookup_insert_ne htok, AList.lookup_erase_ne htok, AList.lookup_insert_ne htok,
        AList.lookup_erase_ne htok, ← ih]
      cases hlookup : (cbkMap regs).lookup tok with
      | none => rfl
      | some i =>
        obtain ⟨⟨r', hr', -⟩, -⟩ := (lookup_cbkMap regs tok i).mp hlookup
        simp only [Option.bind_some]
        rw [List.getElem?_append_left (List.getElem?_eq_some_iff.mp hr').1]

/-- Each registration adds at most one object to the table. -/
theorem length_cbkMap (regs : List GrowReg) : (cbkMap regs).entries.length ≤ regs.length := by
  induction regs using List.reverseRecOn with
  | nil => exact Nat.zero_le _
  | append_singleton regs r ih =>
    rw [cbkMap_append, AList.entries_insert, List.length_cons, List.length_append,
      List.length_singleton]
    have hinsert := (List.kerase_sublist r.tok ((cbkMap regs).erase r.tok).entries).length_le
    have herase := (List.kerase_sublist r.tok (cbkMap regs).entries).length_le
    exact Nat.succ_le_succ (hinsert.trans (herase.trans ih))

/-- For every sequence of registrations, `mcbk_find` finds the callback registered last among those with
its string; and `_moc_destroy` destroys no object twice, and exactly those that were not replaced. -/
theorem cbkh_exact (regs : List GrowReg) (hregs : regs.length < 2 ^ 31) :
    ∃ rets cbkh, run (neHashStep (strFuncs Subtype.val)) neHashInit
        ((registTableOps regs).map TableOp.call) = .ok (rets, cbkh) ∧
      (∀ module cmd : CStr,
        ((cbkh.neHashLookup (strFuncs Subtype.val) (mcbkTok module cmd)).bind fun c =>
          (regs[c]?).map fun r => r.1.cbk) =
            lastWhere (CbkReg.Collides module cmd) (regs.map Prod.fst)) ∧
      ∀ fuel > regs.length, ∃ destroyed, mocDestroyCbks cbkh fuel = some destroyed ∧ destroyed.Nodup ∧
        ∀ c, c ∈ destroyed ↔ ∃ tok, LastOfTok regs c tok := by
  have hinj : Function.Injective (Subtype.val : CStr → List UInt8) := Subtype.val_injective
  obtain ⟨rets, cbkh, hrun, hh⟩ := tableHolds_run hinj (registTableOps regs)
    (by rwa [inserts_registTableOps])
  change TableHolds Subtype.val cbkh (cbkMap regs) at hh
  refine ⟨rets, cbkh, hrun, fun module cmd => ?_, fun fuel hfuel => ?_⟩
  · have hjoin : cbkh.neHashLookup (strFuncs Subtype.val) (mcbkTok module cmd) =
        (cbkMap regs).lookup (mcbkTok module cmd) := by
      rw [hh.ok.neHashLookup_eq (strFuncs_lawful hinj), hh.toMap_eq]
      cases (cbkMap regs).lookup (mcbkTok module cmd) <;> rfl
    rw [hjoin, lookup_cbkMap_eq, ← mcbkFind_registAll]
    rfl
  · have hperm := hh.met_perm hinj
    have hentries : ∀ e, e ∈ (cbkMap regs).entries ↔ LastOfTok regs e.2 e.1 := by
      rintro ⟨tok, c⟩
      rw [← AList.mem_lookup_iff, Option.mem_def, lookup_cbkMap]
    have hlength : cbkh.entries.length < fuel := by
      rw [hh.length_eq hinj]
      exact Nat.lt_of_le_of_lt (length_cbkMap regs) hfuel
    have hwalk := NeHash.walk_still (fun _ : List ℕ => cbkh) (fun destroyed _ c => destroyed ++ [c])
      (strFuncs_lawful hinj) (fun _ _ _ => rfl) []
      hh.ok (hh.nonNull hinj) fuel hlength
    rw [List.foldl_append_eq_append, List.nil_append, ← List.flatMap_def, ← List.map_eq_flatMap] at hwalk
    have hsnd : ((NeHash.met cbkh.entries).map fun p => p.2).Perm
        ((cbkMap regs).entries.map fun e => e.2) := by
      have hmap := hperm.map Prod.snd
      rwa [List.map_map] at hmap
    refine ⟨_, hwalk, hsnd.nodup_iff.mpr ?_, fun c => ?_⟩
    · -- An object is the last one of one string only.
      refine List.Nodup.map_on (fun e he e' he' heq => ?_) (cbkMap regs).nodupKeys.nodup
      obtain ⟨⟨r, hr, htok⟩, -⟩ := (hentries e).mp he
      obtain ⟨⟨r', hr', htok'⟩, -⟩ := (hentries e').mp he'
      rw [heq, hr', Option.some.injEq] at hr
      exact Sigma.ext (by rw [← htok, ← htok', hr]) (heq_of_eq heq)
    · rw [hsnd.mem_iff, List.mem_map]
      constructor
      · rintro ⟨e, he, rfl⟩
        exact ⟨e.1, (hentries e).mp he⟩
      · rintro ⟨tok, hlast⟩
        exact ⟨⟨tok, c⟩, (hentries ⟨tok, c⟩).mpr hlast, rfl⟩

/-- A callback registered twice: the first object is replaced, and never destroyed. -/
theorem cbkh_exact_twice :
    let regs : List GrowReg := [(⟨⟨[97], by decide⟩, ⟨[98], by decide⟩, 1⟩, true),
      (⟨⟨[97], by decide⟩, ⟨[98], by decide⟩, 2⟩, true)]
    ∃ rets cbkh, run (neHashStep (strFuncs Subtype.val)) neHashInit
        ((registTableOps regs).map TableOp.call) = .ok (rets, cbkh) ∧
      (∀ module cmd : CStr,
        ((cbkh.neHashLookup (strFuncs Subtype.val) (mcbkTok module cmd)).bind fun c =>
          (regs[c]?).map fun r => r.1.cbk) =
            lastWhere (CbkReg.Collides module cmd) (regs.map Prod.fst)) ∧
      ∀ fuel > regs.length, ∃ destroyed, mocDestroyCbks cbkh fuel = some destroyed ∧ destroyed.Nodup ∧
        ∀ c, c ∈ destroyed ↔ ∃ tok, LastOfTok regs c tok :=
  cbkh_exact _ (by decide)

end Moc
